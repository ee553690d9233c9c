import Abacus.Proofs.Reading.Phrases

/-! Settling leaves a text as it is whose layout is a phrase: its characters are in order, and so
are its neighbours. -/

namespace Abacus

/-- A point comes after a digit and before no sign, and signs and parentheses stand where they
may. -/
def Tidied (a b : Char) : Prop :=
  (a = '.' → isSpecial b = false) ∧ (b = '.' → a.isDigit = true) ∧
    (isOperandCharacter a = false → isOperandCharacter b = false → Settled a b)

instance (a b : Char) : Decidable (Tidied a b) := inferInstanceAs (Decidable (_ ∧ _))

section Chains

variable {v : Vocabulary} {p q a : Char} {t rest : Text} {items : List Item}

/-- What a text ends with, where the end of an operand counts as the end of a group. -/
def EndsLike (p a : Char) : Prop := a ≠ '.' ∧ (a = p ∨ isOperandCharacter a = true)

theorem EndsLike.tidied (h : EndsLike p a) {b : Char} (hb : isOperandCharacter b = false)
    (hpb : Settled p b) : Tidied a b := by
  refine ⟨fun he => absurd he h.1, fun he => ?_, fun ha _ => ?_⟩
  · rw [he] at hb
    cases hb
  · rcases h.2 with rfl | hop
    · exact hpb
    · rw [ha] at hop
      cases hop

theorem endsLike_sign {c : Char} (hc : c ≠ '.') : EndsLike c c := ⟨hc, .inl rfl⟩

theorem tidied_run (hne : t ≠ []) (ht : ∀ c ∈ t, isOperandCharacter c = true)
    (hafter : List.IsChain AfterDigit (a :: t))
    (hbefore : List.IsChain BeforeOperand (a :: (t ++ [')'])))
    (hrest : ∀ b, EndsLike p b → List.IsChain Tidied (b :: rest)) :
    List.IsChain Tidied (a :: (t ++ rest)) := by
  induction t generalizing a with
  | nil => exact absurd rfl hne
  | cons c t ih =>
    have hop := ht c List.mem_cons_self
    obtain ⟨hac, hafter⟩ := List.isChain_cons_cons.mp hafter
    obtain ⟨hca, hbefore⟩ := List.isChain_cons_cons.mp hbefore
    refine .cons_cons ⟨hca, hac, fun _ h => absurd hop (by simp [h])⟩ ?_
    by_cases hempty : t = []
    · subst hempty
      refine hrest c ⟨?_, .inr hop⟩
      rintro rfl
      exact absurd ((List.isChain_cons_cons.mp hbefore).1 rfl) (by decide)
    · exact ih hempty (fun d hd => ht d (List.mem_cons_of_mem _ hd)) hafter hbefore

theorem Vocabulary.Identified.isWord (hv : v.Identified) (h : v.isCallable t = true) :
    IsWord t ∧ '.' ∉ t ∧ ∀ c ∈ t, IsCanonical c := isWord_of_isIdentifier (hv t h)

/-- Neighbours in the text of a phrase may stand together. -/
theorem Laid.tidied (hv : v.Identified) (h : Laid (.phrased v) p items q) (ha : EndsLike p a)
    (hrest : ∀ b, EndsLike q b → List.IsChain Tidied (b :: rest)) :
    List.IsChain Tidied (a :: (textOf items ++ rest)) := by
  have hrun {a p : Char} {t rest : Text} (ha : a ≠ '.') (ht : IsAtom t)
      (hpoints : List.IsChain BeforeOperand (t ++ [')'])) (hrest : ∀ b, EndsLike p b →
        List.IsChain Tidied (b :: rest)) : List.IsChain Tidied (a :: (t ++ rest)) := by
    obtain ⟨c, u, rfl⟩ := List.exists_cons_of_ne_nil ht.loose.1
    exact tidied_run (by simp) ht.loose.2
      (.cons_cons (fun he => absurd he (ht.afterDigit.2 c rfl)) ht.afterDigit.1)
      (.cons_cons (fun he => absurd he ha) hpoints) hrest
  induction h generalizing a rest with
  | nil => exact hrest a ha
  | @sign p c q others hs hf _ ih =>
    have hpoint : c ≠ '.' := by
      rintro rfl
      exact absurd hs (by decide)
    rw [textOf_sign, List.cons_append]
    exact .cons_cons (ha.tidied (not_operand_of_sign hs) hf) (ih (endsLike_sign hpoint) hrest)
  | run _ ht _ ih =>
    rw [textOf_run, List.append_assoc]
    exact hrun ha.1 ht.atom ht.points fun b hb => ih hb hrest
  | group hf _ _ hend _ ihinner ih =>
    simp only [textOf_group, List.cons_append, List.append_assoc]
    exact .cons_cons (ha.tidied rfl hf) (ihinner (endsLike_sign (by decide)) fun b hb =>
      .cons_cons (hb.tidied rfl hend) (ih (endsLike_sign (by decide)) hrest))
  | call _ hc _ hend _ ihinner ih =>
    obtain ⟨hword, hpoint, -⟩ := hv.isWord hc.1
    simp only [textOf_call, List.cons_append, List.append_assoc]
    refine hrun (p := '(') ha.1 (.inr hword) (beforeOperand_append hpoint (.singleton _))
      fun b hb => ?_
    exact .cons_cons (hb.tidied rfl (show Settled '(' '(' by decide))
      (ihinner (endsLike_sign (by decide)) fun b hb =>
        .cons_cons (hb.tidied rfl hend) (ih (endsLike_sign (by decide)) hrest))

/-- The layout of a text that tidying leaves as it is. -/
structure IsPhrase (v : Vocabulary) (items : List Item) : Prop where
  ne_nil : items ≠ []
  ne_underscore : items ≠ [.run ['_']]
  noComma : .sign ',' ∉ items
  laid : ∃ q ∈ [')', '!'], Laid (.phrased v) '(' items q

theorem IsPhrase.tidied (hv : v.Identified) (h : IsPhrase v items) :
    List.IsChain Tidied ('(' :: (textOf items ++ [')'])) := by
  obtain ⟨q, hq, hlaid⟩ := h.laid
  exact hlaid.tidied hv (endsLike_sign (by decide)) fun b hb =>
    .cons_cons (hb.tidied rfl (settled_sign hq (by decide))) (.singleton _)

end Chains

section Settling

variable {t : Text}

theorem hasPair_of_tidied (h : List.IsChain Tidied t) {a b : Char} (hab : ¬ Tidied a b) :
    hasPair a b t = false := by
  refine hasPair_eq_false_iff.mpr (h.imp fun x y hxy hpair => hab ?_)
  obtain ⟨rfl, rfl⟩ := hpair
  exact hxy

theorem replacePair_of_tidied (h : List.IsChain Tidied t) {a b : Char} {r : Text}
    (hab : ¬ Tidied a b) :
    replacePair a b r t = t := replacePair_of_not_hasPair (hasPair_of_tidied h hab)

theorem collapseOnce_eq_self (h : List.IsChain Tidied t) : collapseOnce t = t := by
  rw [collapseOnce, replacePair_of_tidied h (show ¬ Tidied '+' '-' by decide),
    replacePair_of_tidied h (show ¬ Tidied '-' '+' by decide),
    replacePair_of_tidied h (show ¬ Tidied '-' '-' by decide),
    replacePair_of_tidied h (show ¬ Tidied '*' '+' by decide),
    replacePair_of_tidied h (show ¬ Tidied '/' '+' by decide)]

theorem collapseSigns_eq_self (h : List.IsChain Tidied t) : collapseSigns t = t := by
  rw [collapseSigns, collapseOnce_eq_self h, if_neg (Nat.lt_irrefl _)]

theorem completePoints_eq_self (h : List.IsChain Tidied t) (hlast : t.getLast? ≠ some '.') :
    completePoints t = t := by
  simp only [completePoints, replacePair_of_tidied h (show ¬ Tidied '*' '.' by decide),
    replacePair_of_tidied h (show ¬ Tidied '/' '.' by decide),
    replacePair_of_tidied h (show ¬ Tidied '+' '.' by decide),
    replacePair_of_tidied h (show ¬ Tidied '-' '.' by decide), if_neg hlast]

theorem dropPlus_eq_self (h : List.IsChain Tidied t) (hfirst : t.head? ≠ some '+') :
    dropPlus t = t := by
  rw [dropPlus, replacePair_of_tidied h (show ¬ Tidied '(' '+' by decide), replacePair_of_tidied h
    (show ¬ Tidied ',' '+' by decide), replacePair_of_tidied h (show ¬ Tidied '^' '+' by decide)]
  split
  · exact absurd rfl hfirst
  · rfl

theorem dropPoints_eq_self (h : List.IsChain Tidied t) : dropPoints t = t :=
  dropPoints_of_isChain (h.imp fun a b hab hp => absurd (hab.1 hp.1) (by simp [hp.2]))

theorem forbidden_not_tidied : ∀ e ∈ forbiddenPairs, ¬ Tidied e.1 e.2 := by decide

theorem checkPairs_eq_ok (h : List.IsChain Tidied t) : checkPairs t = .ok () := by
  have hnone : forbiddenPairs.find? (fun p => hasPair p.1 p.2 t) = none :=
    List.find?_eq_none.mpr fun e he => by
      rw [hasPair_of_tidied h (forbidden_not_tidied e he)]; exact Bool.false_ne_true
  rw [checkPairs, hnone]

theorem checkCharacters_eq_ok (h : ∀ c ∈ t, IsAllowed c) : checkCharacters t = .ok () := by
  have hnone : t.find? (fun c => !(c.isAlphanum || isSpecial c)) = none :=
    List.find?_eq_none.mpr fun c hc => by
      simpa [IsAllowed, Decidable.or_iff_not_imp_left] using h c hc
  rw [checkCharacters, hnone]

theorem getLast_of_tidied (h : List.IsChain Tidied ('(' :: (t ++ [')']))) :
    t.getLast? ≠ some '.' := by
  intro hpoint
  obtain ⟨r, rfl⟩ := List.getLast?_eq_some_iff.mp hpoint
  have hchain : List.IsChain Tidied (('(' :: r) ++ '.' :: ')' :: []) := by simpa using h
  exact absurd (isChain_pair hchain) (by decide)

theorem settleSigns_eq_ok_of_collapsed {u : Text} (htrivial : checkNotTrivial u = .ok ())
    (hbalance : checkBalance u = .ok ()) (hends : checkEnds u = .ok ())
    (hcollapse : collapseSigns u = t) (h : List.IsChain Tidied ('(' :: (t ++ [')'])))
    (ht : checkNotTrivial t = .ok ()) (hallowed : ∀ c ∈ t, IsAllowed c) :
    settleSigns u = .ok t := by
  have hmiddle : List.IsChain Tidied t := h.tail.left_of_append
  have hlast := getLast_of_tidied h
  have hfirst : t.head? ≠ some '+' := by
    intro hplus
    obtain ⟨r, rfl⟩ := List.head?_eq_some_iff.mp hplus
    exact absurd (List.isChain_cons_cons.mp h).1 (by decide)
  simp only [settleSigns, htrivial, hbalance, hends, hcollapse,
    completePoints_eq_self hmiddle hlast, ht, checkPairs_eq_ok hmiddle,
    checkCharacters_eq_ok hallowed, dropPlus_eq_self hmiddle hfirst]
  rfl

theorem checkEnds_eq_ok (hlast : ∀ c ∈ t.getLast?, c ∉ ['+', '-', '*', '/', ',', '^'])
    (hfirst : ∀ c ∈ t.head?, c ∉ ['*', '/', '^', '!', ',']) : checkEnds t = .ok () := by
  have hnone {o : Option Char} {cs : List Char} (h : ∀ c ∈ o, c ∉ cs) :
      o.filter cs.contains = none := by
    cases o with
    | none => rfl
    | some c => simpa [Option.filter] using h c rfl
  rw [checkEnds, hnone hlast]
  simp only [hnone hfirst]

theorem checkEnds_of_tidied (h : List.IsChain Tidied ('(' :: (t ++ [')']))) :
    checkEnds t = .ok () := by
  refine checkEnds_eq_ok (fun c hc hmem => ?_) fun c hc hmem => ?_
  · obtain ⟨r, rfl⟩ := List.getLast?_eq_some_iff.mp hc
    have hlast : List.IsChain Tidied (('(' :: r) ++ c :: ')' :: []) := by simpa using h
    have hpair : (c, ')') ∈ forbiddenPairs := by
      simp only [List.mem_cons, List.not_mem_nil, or_false] at hmem
      rcases hmem with rfl | rfl | rfl | rfl | rfl | rfl <;> decide
    exact forbidden_not_tidied _ hpair (isChain_pair hlast)
  · obtain ⟨r, rfl⟩ := List.head?_eq_some_iff.mp hc
    have hpair : ('(', c) ∈ forbiddenPairs := by
      simp only [List.mem_cons, List.not_mem_nil, or_false] at hmem
      rcases hmem with rfl | rfl | rfl | rfl | rfl <;> decide
    exact forbidden_not_tidied _ hpair (List.isChain_cons_cons.mp h).1

theorem checkNotTrivial_of_tidied (hne : t ≠ []) (hname : t ≠ ['_'])
    (hbalance : isBalanced t = true) (h : List.IsChain Tidied ('(' :: (t ++ [')']))) :
    checkNotTrivial t = .ok () := by
  have hsigns : ∀ c ∈ specialCharacters, c = '_' ∨ isBalanced [c] = false ∨ ¬ Tidied '(' c ∨
      ¬ Tidied c ')' := by
    simp only [specialCharacters, List.forall_mem_cons, List.not_mem_nil, false_imp_iff,
      implies_true]
    decide
  cases t with
  | nil => exact absurd rfl hne
  | cons c t =>
    cases t with
    | cons d t => rfl
    | nil =>
      obtain ⟨hfirst, hlast⟩ := List.isChain_cons_cons.mp h
      rw [checkNotTrivial, if_neg]
      intro hspecial
      rcases hsigns c (by simpa [isSpecial] using hspecial) with rfl | hopen | hnot | hnot
      · exact hname rfl
      · rw [hopen] at hbalance
        cases hbalance
      · exact hnot hfirst
      · exact hnot (List.isChain_cons_cons.mp hlast).1

/-- Where nothing has to be settled, settling changes nothing. -/
theorem settleSigns_eq_self (hne : t ≠ []) (hname : t ≠ ['_']) (hbalance : isBalanced t = true)
    (h : List.IsChain Tidied ('(' :: (t ++ [')']))) (hallowed : ∀ c ∈ t, IsAllowed c) :
    settleSigns t = .ok t := by
  have htrivial := checkNotTrivial_of_tidied hne hname hbalance h
  have hcollapse := collapseSigns_eq_self h.tail.left_of_append
  exact settleSigns_eq_ok_of_collapsed htrivial (by rw [checkBalance, if_pos hbalance])
    (checkEnds_of_tidied h) hcollapse h htrivial hallowed

variable {v : Vocabulary} {items : List Item} {p q : Char}

theorem Laid.canonical (hv : v.Identified) (h : Laid (.phrased v) p items q) :
    ∀ c ∈ textOf items, IsCanonical c := by
  have hopen : IsCanonical '(' := ⟨.inr rfl, rfl⟩
  have hclose : IsCanonical ')' := ⟨.inr rfl, rfl⟩
  induction h with
  | nil => simp
  | @sign _ c _ _ hs _ _ ih =>
    have hc : IsCanonical c := by
      simp only [isSign, List.contains_iff_mem, List.mem_cons, List.not_mem_nil, or_false] at hs
      rcases hs with rfl | rfl | rfl | rfl | rfl | rfl | rfl <;> exact ⟨.inr rfl, rfl⟩
    rw [textOf_sign]
    exact List.forall_mem_cons.mpr ⟨hc, ih⟩
  | run _ ht _ ih =>
    rw [textOf_run]
    exact List.forall_mem_append.mpr ⟨ht.canonical, ih⟩
  | group _ _ _ _ _ ihinner ih =>
    rw [textOf_group]
    exact List.forall_mem_cons.mpr
      ⟨hopen, List.forall_mem_append.mpr ⟨ihinner, List.forall_mem_cons.mpr ⟨hclose, ih⟩⟩⟩
  | call _ hc _ _ _ ihinner ih =>
    rw [textOf_call]
    exact List.forall_mem_append.mpr ⟨(hv.isWord hc.1).2.2, List.forall_mem_cons.mpr ⟨hopen,
      List.forall_mem_append.mpr ⟨ihinner, List.forall_mem_cons.mpr ⟨hclose, ih⟩⟩⟩⟩

theorem Laid.phrased_plain (hv : v.Identified) (h : Laid (.phrased v) p items q) :
    Laid .plain p items q :=
  h.imp (fun _ _ hf => hf.1) (fun _ ht => ht.atom.loose) (fun _ _ => trivial) fun _ _ hc =>
    IsAtom.loose (.inr (hv.isWord hc.1).1)

theorem Laid.phrased_loose (hv : v.Identified) (h : Laid (.phrased v) p items q) : Loose items :=
  ((h.phrased_plain hv).imp (s := .loose) (fun _ _ _ => trivial) (fun _ ht => ht) (fun _ hg => hg)
    fun _ _ hc => hc).loose

namespace IsPhrase

variable (hv : v.Identified) (h : IsPhrase v items)
include hv h

theorem loose : Loose items := by
  obtain ⟨q, -, hlaid⟩ := h.laid
  exact hlaid.phrased_loose hv

theorem canonical : ∀ c ∈ textOf items, IsCanonical c := by
  obtain ⟨q, -, hlaid⟩ := h.laid
  exact hlaid.canonical hv

theorem textOf_ne_name : textOf items ≠ ['_'] := by
  obtain ⟨q, -, hlaid⟩ := h.laid
  intro hname
  cases hlaid with
  | nil => exact absurd rfl h.ne_nil
  | sign hs =>
    obtain ⟨rfl, -⟩ := List.cons.inj hname
    exact absurd hs (by decide)
  | @run _ _ t rest _ ht hrest =>
    rw [textOf_run, List.append_eq_singleton_iff] at hname
    rcases hname with ⟨hnil, -⟩ | ⟨rfl, hrest'⟩
    · exact ht.atom.loose.1 hnil
    · have hempty : rest = [] := by
        by_contra hsome
        exact (hrest.phrased_loose hv).textOf_ne_nil hsome hrest'
      exact h.ne_underscore (by rw [hempty])
  | group => simp at hname
  | call _ hcall _ _ _ =>
    obtain ⟨c, rest, rfl, -⟩ := (hv.isWord hcall.1).1.first
    simp at hname

theorem isBalanced : isBalanced (textOf items) = true := (h.loose hv).nested.isBalanced

theorem checkNotTrivial : checkNotTrivial (textOf items) = .ok () :=
  checkNotTrivial_of_tidied ((h.loose hv).textOf_ne_nil h.ne_nil) (h.textOf_ne_name hv)
    (h.isBalanced hv) (h.tidied hv)

theorem settleSigns : settleSigns (textOf items) = .ok (textOf items) :=
  settleSigns_eq_self ((h.loose hv).textOf_ne_nil h.ne_nil) (h.textOf_ne_name hv) (h.isBalanced hv)
    (h.tidied hv) fun c hc => (h.canonical hv c hc).1

end IsPhrase

end Settling

section

variable {v : Vocabulary} {level : List Item → Prop} {k : Strength} {items : List Item} {e : Expr}

theorem Denotes.ne_underscore (h : Denotes v level k items e) (hne : e ≠ .identifier ['_']) :
    items ≠ [.run ['_']] := by
  induction h with
  | tighter _ _ ih => exact ih hne
  | terminal h => simpa using h.ne_underscore hne
  | operator | difference | negativeExponent | factorial => simp [List.append_eq_singleton_iff]
  | negative | group | call => simp

theorem Denotes.isPhrase (hv : v.Identified) (h : Denotes v level k items e)
    (hne : e ≠ .identifier ['_']) : IsPhrase v items :=
  ⟨h.ne_nil, h.ne_underscore hne, h.comma_not_mem, h.laid hv (by decide) fun h =>
    absurd h (by decide)⟩

theorem Denotes.loose (hv : v.Identified) (h : Denotes v level k items e) : Loose items := by
  obtain ⟨q, -, hlaid⟩ := h.laid hv (p := '(') (by decide) fun h => absurd h (by decide)
  exact hlaid.phrased_loose hv

end

end Abacus
