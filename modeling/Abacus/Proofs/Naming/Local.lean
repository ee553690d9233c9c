import Abacus.Proofs.Canonical.Normal
import Abacus.Proofs.Naming.Grouping
import Abacus.Proofs.Naming.Hollow
import Abacus.Proofs.Naming.Lookup
import Abacus.Proofs.Naming.Points
import Abacus.Proofs.Workspace.WellFormed

/-! Reading is local: of the names that formulas are registered under, only the words of a text have
a part in its reading. -/

namespace Abacus

section Points

variable {t u : Text} {a b c : Char}

/-- Every point stands between two digits. -/
def PointsBetweenDigits (t : Text) : Prop := ∀ left right, t = left ++ '.' :: right →
  left.getLast?.any Char.isDigit = true ∧ right.head?.any Char.isDigit = true

/-- A point stands beside a digit. -/
def BesideDigit (a b : Char) : Prop := (a = '.' → b.isDigit = true) ∧ (b = '.' → a.isDigit = true)

instance : DecidableRel BesideDigit := fun _ _ => inferInstanceAs (Decidable (_ ∧ _))

theorem pointsBetweenDigits_iff :
    PointsBetweenDigits t ↔ List.IsChain BesideDigit t ∧ t.head? ≠ some '.' ∧
      t.getLast? ≠ some '.' := by
  constructor
  · intro h
    refine ⟨List.isChain_iff_forall_rel_of_append_cons_cons.mpr ?_, fun hfirst => ?_,
      fun hlast => ?_⟩
    · rintro a b left right rfl
      refine ⟨?_, ?_⟩
      · rintro rfl
        simpa using (h left (b :: right) rfl).2
      · rintro rfl
        simpa using (h (left ++ [a]) right (by simp)).1
    · obtain ⟨right, rfl⟩ := List.head?_eq_some_iff.mp hfirst
      cases (h [] right rfl).1
    · obtain ⟨left, rfl⟩ := List.getLast?_eq_some_iff.mp hlast
      cases (h left [] rfl).2
  · rintro ⟨hchain, hfirst, hlast⟩ left right rfl
    constructor
    · rcases List.eq_nil_or_concat' left with rfl | ⟨left, a, rfl⟩
      · exact absurd rfl hfirst
      · rw [List.append_assoc] at hchain
        simpa using (isChain_pair hchain).2 rfl
    · cases right with
      | nil => exact absurd (by simp) hlast
      | cons b right => simpa using (isChain_pair hchain).1 rfl

instance : Decidable (PointsBetweenDigits t) := decidable_of_iff _ pointsBetweenDigits_iff.symm

theorem besideDigit_of_stop {x : Char} (ha : isOperandCharacter a = false)
    (hc : isOperandCharacter c = false) (h : BesideDigit x a) : BesideDigit x c := by
  have hstop {c : Char} (hc : isOperandCharacter c = false) : ¬ c.isDigit = true ∧ c ≠ '.' :=
    not_or.mp (not_operand_iff.mp hc).1
  exact ⟨fun hx => absurd (h.1 hx) (hstop ha).1, fun he => absurd he (hstop hc).2⟩

theorem BesideDigit.symm (h : BesideDigit a b) : BesideDigit b a := ⟨h.2, h.1⟩

theorem keptBy_besideDigit {pairs : List (Char × Char × Text)}
    (hpairs : ∀ e ∈ pairs, e ∈ settlingPairs ∨ e ∈ leadingPairs) :
    KeptBy pairs fun t => List.IsChain BesideDigit ('(' :: t) := by
  intro e he left right h
  rw [← List.cons_append, List.isChain_append_cons_cons] at h
  obtain ⟨hleft, hmiddle, hright⟩ := h
  obtain ⟨ha, ⟨hb, c, hr, hc⟩ | ⟨hb, -⟩⟩ := settling_cases (hpairs e he)
  · rw [hr, ← List.cons_append, List.singleton_append, List.isChain_split]
    obtain ⟨hbefore, -, hlast⟩ := List.isChain_append.mp hleft
    constructor
    · refine List.isChain_append.mpr ⟨hbefore, .singleton c, fun x hx y hy => ?_⟩
      obtain rfl : c = y := by simpa using hy
      exact besideDigit_of_stop ha hc (hlast x hx e.1 rfl)
    · cases right with
      | nil => exact .singleton c
      | cons x right =>
        exact .cons_cons (besideDigit_of_stop hb hc hright.rel.symm).symm hright.tail
  · exact absurd (hmiddle.2 hb) (not_or.mp (not_operand_iff.mp ha).1).1

theorem Settles.besideDigit (hs : Settles t u) (h : List.IsChain BesideDigit ('(' :: t)) :
    List.IsChain BesideDigit ('(' :: u) := by
  have hsettled : List.IsChain BesideDigit ('(' :: settled t) :=
    completePoints_induction (P := fun t => List.IsChain BesideDigit ('(' :: t))
      (keptBy_besideDigit fun e he => .inl he)
      (fun t ht => ht.left_of_append)
        (collapseSigns_induction (keptBy_besideDigit fun e he => .inl he) h)
  rw [hs.result]
  refine dropPlus_induction (keptBy_besideDigit fun e he => .inr he) (fun t ht => ?_) hsettled
  cases t with
  | nil => exact .singleton _
  | cons x t =>
    exact .cons_cons (besideDigit_of_stop (by decide) (by decide) ht.tail.rel.symm).symm
      ht.tail.tail

theorem Settles.points (hs : Settles t u) (h : PointsBetweenDigits t) :
    dropPoints u = u ∧ List.IsChain AfterDigit ('(' :: dropPoints u) := by
  obtain ⟨hchain, hfirst, -⟩ := pointsBetweenDigits_iff.mp h
  have hbeside : List.IsChain BesideDigit ('(' :: u) := hs.besideDigit <| hchain.cons fun c hc => by
    refine ⟨fun h => absurd h (by decide), ?_⟩
    rintro rfl
    exact absurd hc hfirst
  have hdropped : dropPoints u = u :=
    dropPoints_of_isChain <| hbeside.tail.imp fun a b hab hpoint => by
    have hspecial : isSpecial b = false :=
      not_special_of_alphanum (by simp [Char.isAlphanum, hab.1 hpoint.1])
    rw [hpoint.2] at hspecial
    cases hspecial
  refine ⟨hdropped, ?_⟩
  rw [hdropped]
  exact hbeside.imp fun a b hab => hab.2

end Points

section Calls

variable {v v' : Vocabulary} {level level' : List Item → Prop} {p q : Char} {items : List Item}
  {left right x y : Text}

theorem split_open (h : x ++ ')' :: y = left ++ '(' :: right) :
    (∃ others, x = left ++ '(' :: others) ∨
      ∃ others, left = x ++ ')' :: others ∧ y = others ++ '(' :: right := by
  rcases List.append_eq_append_iff.mp h with ⟨others, rfl, hothers⟩ | ⟨others, rfl, hothers⟩
  · cases others with
    | nil => exact absurd (List.cons.inj hothers).1 (by decide)
    | cons c others =>
      obtain ⟨rfl, hy⟩ := List.cons.inj hothers
      exact .inr ⟨others, rfl, hy⟩
  · cases others with
    | nil => exact absurd (List.cons.inj hothers).1 (by decide)
    | cons c others =>
      obtain ⟨rfl, -⟩ := List.cons.inj hothers
      exact .inl ⟨others, rfl⟩

theorem Laid.before_open (hv : v.Identified)
    (h : Laid (.leveled IsAtom (IsCalled v) level) p items q) (before : Text)
    (hb : p ≠ ')' → ∀ c ∈ before.getLast?, isOperandCharacter c = false)
    (ht : textOf items = left ++ '(' :: right) :
    v.isCallable (nameBefore (before ++ left).reverse) = true ∨
      ∀ c ∈ (before ++ left).getLast?, isOperandCharacter c = false := by
  induction h generalizing before left right with
  | nil => simp at ht
  | @sign p c q rest hs _ _ ih =>
    rw [textOf_sign] at ht
    cases left with
    | nil => exact absurd (List.cons.inj ht).1 (ne_open_of_sign hs)
    | cons d left =>
      obtain ⟨rfl, hrest⟩ := List.cons.inj ht
      simpa using ih (before ++ [c]) (fun _ => by simpa using not_operand_of_sign hs) hrest
  | @run p q t rest _ hrun _ ih =>
    rw [textOf_run] at ht
    obtain ⟨l, rfl, hrest⟩ := split_run (fun hmem => absurd (hrun.loose.2 _ hmem) (by decide)) ht
    simpa using ih (before ++ t) (fun hp => absurd rfl hp) hrest
  | @group p m q inner rest hf _ _ _ _ ihinner ih =>
    rw [textOf_group] at ht
    cases left with
    | nil => exact .inr (by simpa using hb (hf rfl).1)
    | cons d left =>
      obtain ⟨rfl, hinside⟩ := List.cons.inj ht
      rcases split_open hinside with ⟨others, hinner⟩ | ⟨others, rfl, hrest⟩
      · simpa using ihinner (before ++ ['(']) (fun _ => by simp; decide) hinner
      · simpa using ih (before ++ '(' :: (textOf inner ++ [')'])) (fun hp => absurd rfl hp) hrest
  | @call p m q name inner rest hf hc _ _ _ ihinner ih =>
    rw [textOf_call] at ht
    -- the parenthesis of the call itself, one inside of it or one after it
    obtain ⟨l, rfl, hopen⟩ := split_run (fun hmem => absurd (hc.1.loose.2 _ hmem) (by decide)) ht
    cases l with
    | nil =>
      left
      rw [List.append_nil, List.reverse_append, hc.1.nameBefore hv (by simpa using hb (hf rfl).1)]
      exact hc.1.2
    | cons d l =>
      obtain ⟨rfl, hinside⟩ := List.cons.inj hopen
      rcases split_open hinside with ⟨others, hinner⟩ | ⟨others, rfl, hrest⟩
      · simpa using ihinner (before ++ (name ++ ['('])) (fun _ => by simp; decide) hinner
      · simpa using ih (before ++ (name ++ '(' :: (textOf inner ++ [')'])))
          (fun hp => absurd rfl hp) hrest

theorem InOrder.isCallable_eq (hv : v.Identified) (hv' : v'.Identified)
    (h : InOrder v level (left ++ '(' :: right)) (h' : InOrder v' level' (left ++ '(' :: right)) :
    v.isCallable (nameBefore left.reverse) = v'.isCallable (nameBefore left.reverse) := by
  -- which names are called can be seen from the text alone
  have hbefore {v : Vocabulary} {level : List Item → Prop} (hv : v.Identified)
      (h : InOrder v level (left ++ '(' :: right)) : v.isCallable (nameBefore left.reverse) = true ↔
      nameBefore left.reverse ≠ [] := by
    obtain ⟨items, htext, -, q, hq⟩ := h
    refine ⟨fun hcall hnil => ?_, fun hne => ?_⟩
    · rw [hnil, hv.nil] at hcall
      cases hcall
    · refine (hq.before_open hv [] (by simp) htext).resolve_right fun hlast =>
        hne (nameBefore_of_stop ?_)
      rwa [List.head?_reverse]
  rw [Bool.eq_iff_iff, hbefore hv h, hbefore hv' h']

end Calls

section Tidying

variable {v v' : Vocabulary} {f : Text → List Text} {before s t u w n : Text}

theorem dropEmptyGroup?_same
    (h : ∀ left right, t = left ++ '(' :: ')' :: right →
      v.isCallable (nameBefore (left.reverse ++ before)) = v'.isCallable
      (nameBefore (left.reverse ++ before))) :
    dropEmptyGroup? v before t = dropEmptyGroup? v' before t := by
  fun_induction dropEmptyGroup? v before t with
  | case1 before rest hcall ih =>
    have hcall' : v'.isCallable (nameBefore before) = true := (h [] rest rfl).symm.trans hcall
    rw [dropEmptyGroup?_call hcall',
      ih fun left right hrest => by simpa using h ('(' :: ')' :: left) right (by rw [hrest]; rfl)]
  | case2 before rest hcall =>
    have hcall' : v'.isCallable (nameBefore before) = false :=
      (h [] rest rfl).symm.trans (by simpa using hcall)
    rw [dropEmptyGroup?_group hcall']
  | case3 before c rest hopen ih =>
    have hpush : c ≠ '(' ∨ rest.head? ≠ some ')' := by
      by_contra hboth
      obtain ⟨hc, hhead⟩ := not_or.mp hboth
      obtain ⟨others, rfl⟩ := List.head?_eq_some_iff.mp (not_not.mp hhead)
      exact hopen others (not_not.mp hc) rfl
    rw [dropEmptyGroup?_push hpush,
      ih fun left right hrest => by simpa using h (c :: left) right (by rw [hrest]; rfl)]
  | case4 => rfl

theorem ReadsWords.dropEmptyGroup? (hf : ReadsWords f) (h : InOrder v AfterNegatives u)
    (hw : dropEmptyGroup? v [] u = some w) : f w = f u := by
  obtain ⟨left, right, rfl, rfl, -⟩ := exists_of_dropEmptyGroup? hw
  have hright : ∀ c ∈ right.head?, isOperandCharacter c = false := by
    intro c hc
    obtain ⟨others, rfl⟩ := List.head?_eq_some_iff.mp hc
    have hclosed : List.IsChain Closed ((left ++ ['(']) ++ ')' :: c :: others) := by
      simpa using h.closed.tail
    exact (isChain_pair hclosed (.inl rfl)).1
  rw [hf.append_of_first _ hright, hf.split (by decide), hf.cons (by decide)]

/-- Tidying a text that is in order keeps the words that it has without the points before other
signs. -/
theorem ReadsWords.tidyFrom (hf : ReadsWords f) (hv : v.Identified) (h : InOrder v AfterNegatives t)
    (hn : tidyFrom v t = .ok n) : f n = f (dropPoints t) := by
  obtain ⟨t', u, ⟨horder, hwords⟩, hs, -, hwrite⟩ := tidyFrom_cases
    (P := fun s => InOrder v AfterNegatives s ∧ f (dropPoints s) = f (dropPoints t))
    (fun s u w ⟨horder, hwords⟩ hs hw => by
      have hu := horder.settles hv hs
      exact ⟨hu.dropEmptyGroup? hv hw,
        by rw [hf.dropped.dropEmptyGroup? hu hw, hf.dropped.settled hs, hwords]⟩) ⟨h, rfl⟩ hn
  have hpoints := ((horder.settles hv hs).dropped hv).afterDigit
  rw [hf.written (writeProducts_eq_ok hwrite) hpoints, hf.dropped.settled hs, hwords]

theorem InOrder.dropEmptyGroup?_same (hv : v.Identified) (hv' : v'.Identified)
    (h : InOrder v AfterNegatives t) (h' : InOrder v' AfterNegatives t) :
    Abacus.dropEmptyGroup? v [] t = Abacus.dropEmptyGroup? v' [] t :=
  Abacus.dropEmptyGroup?_same fun left right ht => by
    subst ht
    rw [List.append_nil]
    exact h.isCallable_eq hv hv' h'

/-- Round by round, a text that is in order is tidied by its words. -/
theorem InOrder.tidyFrom_same (hv : v.Identified) (hv' : v'.Identified)
    (h : InOrder v AfterNegatives t) (h' : InOrder v' AfterNegatives t)
    (hsame : SameFor v v' (words (Abacus.dropPoints t))) : tidyFrom v t = tidyFrom v' t := by
  have hread := readsWords_words.dropped
  fun_induction tidyFrom v t with
  | case1 t e he => rw [tidyFrom_eq v', he, error_bind]
  | case2 t u hu w hw ih =>
    have hs := settleSigns_eq_ok hu
    have horder := h.settles hv hs
    have horder' := h'.settles hv' hs
    have hw' := (horder.dropEmptyGroup?_same hv hv' horder').symm.trans hw
    rw [tidyFrom_eq v', hu, ok_bind, hw']
    refine ih (horder.dropEmptyGroup? hv hw) (horder'.dropEmptyGroup? hv' hw') ?_
    rwa [hread.dropEmptyGroup? horder hw, hread.settled hs]
  | case3 t u hu hw =>
    have hs := settleSigns_eq_ok hu
    have horder := h.settles hv hs
    have hw' := (horder.dropEmptyGroup?_same hv hv' (h'.settles hv' hs)).symm.trans hw
    rw [tidyFrom_eq v', hu, ok_bind, hw']
    exact writeProducts_same (horder.dropped hv).afterDigit (by rwa [hread.settled hs])

section

variable (hempty : hasPair '(' ')' t = false)
include hempty

theorem tidyFrom_of_not_hasPair (v : Vocabulary) :
    tidyFrom v t = settleSigns t >>= writeProducts v := by
  have hcalled : EmptyCalled v t := by
    rintro left right rfl
    exact absurd ⟨rfl, rfl⟩ (isChain_pair (hasPair_eq_false_iff.mp hempty))
  rw [tidyFrom_eq]
  cases hu : settleSigns t with
  | error e => rfl
  | ok u => rw [ok_bind, ok_bind, hcalled.dropEmptyGroup? (settleSigns_eq_ok hu)]

variable (hpoints : PointsBetweenDigits t)
include hpoints

/-- Typed text is tidied by its words. -/
theorem tidyFrom_same (h : SameFor v v' (words t)) : tidyFrom v t = tidyFrom v' t := by
  rw [tidyFrom_of_not_hasPair hempty, tidyFrom_of_not_hasPair hempty]
  cases hu : settleSigns t with
  | error e => rfl
  | ok u =>
    have hs := settleSigns_eq_ok hu
    obtain ⟨hdropped, hdigit⟩ := hs.points hpoints
    rw [ok_bind, ok_bind]
    exact writeProducts_same hdigit (by rwa [hdropped, readsWords_words.settled hs])

theorem ReadsWords.tidyFrom_of_points (hf : ReadsWords f) (hn : Abacus.tidyFrom v t = .ok n) :
    f (dropPoints n) = f t := by
  rw [tidyFrom_of_not_hasPair hempty, bind_eq_ok] at hn
  obtain ⟨u, hu, hn⟩ := hn
  have hs := settleSigns_eq_ok hu
  obtain ⟨hdropped, hdigit⟩ := hs.points hpoints
  have hwritten := hf.dropped.written (writeProducts_eq_ok hn) hdigit
  rw [hwritten, hdropped, hdropped, hf.settled hs]

end

end Tidying

section Reading

variable {v v' : Vocabulary} {t n : Text} (hv : v.Identified)
  (hempty : hasPair '(' ')' (lowercase (withoutBlanks t)) = false)
  (hpoints : PointsBetweenDigits (lowercase (withoutBlanks t)))
include hv hempty hpoints

/-- Canonical text has the words of what was typed. -/
theorem words_of_canonical (h : canonical v t = .ok n) :
    words n = words (lowercase (withoutBlanks t)) := by
  obtain ⟨u, hu, horder, -, hn⟩ := inOrder_of_canonical h
  rw [readsWords_words.tidyFrom hv horder hn, readsWords_words.dropped.withGroups,
    readsWords_words.tidyFrom_of_points hempty hpoints hu]

theorem canonical_same (hv' : v'.Identified)
    (h : SameFor v v' (words (lowercase (withoutBlanks t)))) : canonical v t = canonical v' t := by
  have hfirst : tidy v t = tidy v' t := tidyFrom_same hempty hpoints h
  rw [canonical, canonical, ← hfirst]
  cases hu : tidy v t with
  | error e => rfl
  | ok u =>
    have hcanonical := canonical_withGroups hu
    have hknown : SameFor v v' (words (dropPoints (withGroups u))) := by
      rwa [readsWords_words.dropped.withGroups,
        readsWords_words.tidyFrom_of_points hempty hpoints hu]
    have hsecond : tidyFrom v (withGroups u) = tidyFrom v' (withGroups u) := by
      -- a text with its groups is in order by both vocabularies, unless its signs cannot be settled
      cases hs : settleSigns (withGroups u) with
      | error e => rw [tidyFrom_eq, tidyFrom_eq, hs, error_bind, error_bind]
      | ok s =>
        have hs := settleSigns_eq_ok hs
        exact (inOrder_withGroups hu hs).tidyFrom_same hv hv'
          (inOrder_withGroups (hfirst.symm.trans hu) hs) hknown
    rw [← lowercase_withoutBlanks_eq_self hcanonical] at hsecond
    exact hsecond

theorem read_same (hv' : v'.Identified) (h : SameFor v v' (words (lowercase (withoutBlanks t)))) :
    Expr.read v t = Expr.read v' t := by
  rw [Expr.read, Expr.read, ← canonical_same hv hempty hpoints hv' h]
  cases hn : canonical v t with
  | error e => rfl
  | ok n => exact build_same (by rwa [words_of_canonical hv hempty hpoints hn])

end Reading

namespace Workspace

theorem sameFor_run (l : Library) (ops ops' : List Operation) {known : List Text}
    (h : ∀ name ∈ known, ((run l ops).formulas.find? name).map Formula.arity =
      ((run l ops').formulas.find? name).map Formula.arity) :
    SameFor (run l ops).vocabulary (run l ops').vocabulary known := by
  have hnone (ops : List Operation) {name : Text} (hname : ¬ isIdentifier name = true) :
      (run l ops).formulas.find? name = none := by
    cases hf : (run l ops).formulas.find? name with
    | none => rfl
    | some f =>
      have hcallable : (run l ops).vocabulary.isCallable name = true := by
        simp [Vocabulary.isCallable, vocabulary, Registry.contains, hf]
      exact absurd ((wellFormed_run l ops).identified name hcallable) hname
  intro name hknown
  constructor
  · rw [vocabulary, vocabulary, library_run, library_run]
  · by_cases hname : isIdentifier name = true
    · exact h name (hknown hname)
    · exact congrArg (Option.map Formula.arity) ((hnone ops hname).trans (hnone ops' hname).symm)

/-- Names are resolved locally: two workspaces with the same library read a text alike, as the same
tree or with the same error, if every word of the text is a formula with as many parameters in both
or in neither. Where an empty pair of parentheses or a point goes, reading may join words to one
that was not typed. -/
theorem read_local (l : Library) (ops ops' : List Operation) {t : Text}
    (hempty : hasPair '(' ')' (lowercase (withoutBlanks t)) = false)
    (hpoints : PointsBetweenDigits (lowercase (withoutBlanks t)))
    (hagree : ∀ word ∈ words (lowercase (withoutBlanks t)),
      ((run l ops).formulas.find? word).map Formula.arity =
      ((run l ops').formulas.find? word).map Formula.arity) :
    Expr.read (run l ops).vocabulary t = Expr.read (run l ops').vocabulary t :=
  read_same (wellFormed_run l ops).identified hempty hpoints (wellFormed_run l ops').identified
    (sameFor_run l ops ops' hagree)

theorem read_local_other_formulas :
    Expr.read (run .full [.createFormula "g".toList "x*y".toList,
        .createFormula "f".toList "cos(z)".toList]).vocabulary "2 F(0.5)! - k".toList =
      .ok (.binary .add
        (.binary .multiply (.number 2) (.factorial (.call "f".toList [.number 0.5])))
        (.negate (.identifier "k".toList))) := by
  have hwords : words (lowercase (withoutBlanks "2 F(0.5)! - k".toList)) =
      ["f".toList, "k".toList] := by decide
  refine (read_local .full _ [.createFormula "f".toList "x^2".toList] (by decide)
    (by decide) ?_).trans (by with_unfolding_all rfl)
  rw [hwords]
  simp only [List.forall_mem_cons, List.not_mem_nil, false_imp_iff, implies_true, and_true]
  constructor
  · exact (show _ = some 1 by with_unfolding_all rfl).trans (by with_unfolding_all rfl)
  · exact (show _ = none by with_unfolding_all rfl).trans (by with_unfolding_all rfl)

end Workspace

end Abacus
