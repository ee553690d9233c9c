import Abacus.Proofs.Naming.Grouping
import Abacus.Proofs.Naming.Hollow
import Abacus.Proofs.Naming.Places
import Abacus.Proofs.Naming.Points

/-! The names of a tree that was read. They are the words of what was typed, once the groups without
operands and the points before other signs are gone. -/

namespace Abacus

section Calls

variable {v : Vocabulary} {l : Library} {left right t u n : Text} {c : Char}

theorem exists_checkArguments_right {before : Text} {frames : List Frame}
    (h : checkArguments v before frames (left ++ right) = .ok ()) :
    ∃ frames, checkArguments v (left.reverse ++ before) frames right = .ok () := by
  induction left generalizing before frames with
  | nil => exact ⟨frames, h⟩
  | cons c left ih =>
    have hnext : ∃ frames, checkArguments v (c :: before) frames (left ++ right) = .ok () := by
      rw [List.cons_append] at h
      by_cases hopen : c = '('
      · subst hopen
        rw [checkArguments_open] at h
        exact ⟨_, h⟩
      by_cases hcomma : c = ','
      · subst hcomma
        exact ⟨_, (checkArguments_comma h).2⟩
      by_cases hclose : c = ')'
      · subst hclose
        rcases frames with _ | ⟨_ | _, outer⟩
        · exact ⟨[], by simpa [checkArguments] using h⟩
        · rw [checkArguments_close_group] at h
          exact ⟨outer, h⟩
        · exact ⟨outer, (checkArguments_close_call h).2⟩
      · rw [checkArguments_push hopen hcomma hclose] at h
        exact ⟨frames, h⟩
    obtain ⟨frames, hframes⟩ := hnext
    simpa using ih hframes

theorem admits_of_empty {before : Text} {frames : List Frame} {arity : Arity}
    (h : checkArguments v before frames ('(' :: ')' :: right) = .ok ())
    (harity : v.arity? (nameBefore before) = some arity) : arity.admits 0 = true := by
  have hopened : Frame.opened v before (')' :: right) = .call (nameBefore before) arity 0 true := by
    rw [Frame.opened, harity]
    rfl
  rw [checkArguments_open, hopened] at h
  exact (checkArguments_close_call h).1

theorem Callable.arity_admits (c : Callable) : c.arity.admits 0 = false := by
  cases c with
  | function f => cases f <;> rfl
  | series s => cases s <;> rfl

theorem Callable.name_start (c : Callable) :
    ∃ d rest, c.name = d :: rest ∧ isSpecial d = false := by
  cases c with
  | function f => cases f <;> exact ⟨_, _, rfl, by decide⟩
  | series s => cases s <;> exact ⟨_, _, rfl, by decide⟩

theorem exists_dropPoints_name {d : Char} {rest : Text} (h : nameBefore left.reverse = d :: rest)
    (hd : isSpecial d = false) (right : Text) :
    ∃ left', dropPoints (left ++ '(' :: right) = left' ++ '(' :: dropPoints right ∧
      nameBefore left'.reverse = d :: rest := by
  obtain ⟨before, run, rfl, hbefore, hrun⟩ := exists_last_run isWordCharacter left
  rw [nameBefore_run hbefore hrun] at h
  have hpoint : '.' ∉ run := fun hmem => absurd (hrun '.' hmem) (by decide)
  have hhead : ∀ c ∈ (run ++ '(' :: right).head?, isSpecial c = false := by
    intro c hc
    cases run with
    | nil => cases h
    | cons e run =>
      obtain rfl : e = c := by simpa using hc
      cases hdigit : e.isDigit with
      | true => exact not_special_of_alphanum (by simp [Char.isAlphanum, hdigit])
      | false =>
        rw [List.dropWhile_cons_of_neg (by simp [hdigit])] at h
        rwa [(List.cons.inj h).1]
  refine ⟨dropPoints before ++ run, ?_, ?_⟩
  · have hlast : ∀ a ∈ run.getLast?, ∀ b ∈ ('(' :: right).head?, ¬ (a = '.' ∧ isSpecial b = true) :=
      fun a ha b _ hab => hpoint (hab.1 ▸ List.mem_of_getLast? ha)
    rw [List.append_assoc, dropPoints_append (fun a _ b hb hab => by simp [hhead b hb] at hab),
      dropPoints_append hlast, dropPoints_of_not_mem hpoint, dropPoints_cons (by decide),
      List.append_assoc]
  · rw [nameBefore_run (by rwa [getLast?_dropPoints]) hrun, h]

theorem ne_empty_of_written (hcalled : EmptyCalled (.ofLibrary l) t)
    (hw : Written (.ofLibrary l) t n) (left right : Text) : t ≠ left ++ '(' :: ')' :: right := by
  rintro rfl
  obtain ⟨c, hc⟩ : ∃ c, l.find? (nameBefore left.reverse) = some c := by
    have hcall := hcalled left right rfl
    simpa [Vocabulary.isCallable, Vocabulary.ofLibrary, Registry.contains, Option.isSome_iff_exists]
      using hcall
  obtain ⟨d, rest, hname, hd⟩ := c.name_start
  have hbefore : nameBefore left.reverse = d :: rest := (Library.name_of_find? hc).symm.trans hname
  obtain ⟨left', hdropped, hname'⟩ := exists_dropPoints_name hbefore hd (')' :: right)
  have harguments := hw.arguments
  rw [hdropped, dropPoints_cons (by decide)] at harguments
  obtain ⟨frames, hright⟩ := exists_checkArguments_right harguments
  have harity : (Vocabulary.ofLibrary l).arity? (nameBefore (left'.reverse ++ [])) =
      some c.arity := by
    rw [List.append_nil, hname', ← hbefore, Vocabulary.arity?, Vocabulary.ofLibrary]
    simp only [hc]
  have hadmits := admits_of_empty hright harity
  rw [c.arity_admits] at hadmits
  cases hadmits

end Calls

section Tidying

variable {f : Text → List Text} {l : Library} {t u n : Text}

/-- Before the parenthesis that closes a group stands no sign, and before a point no point and no
such parenthesis. -/
def Parted (a b : Char) : Prop := (b = ')' → isArithmetic a = false) ∧ (b = '.' → a ≠ '.' ∧ a ≠ ')')

theorem Settles.parted (h : Settles t u) : List.IsChain Parted u := by
  have hforbidden : ∀ a ∈ arithmeticSigns, (a, ')') ∈ forbiddenPairs := by
    simp only [arithmeticSigns, List.forall_mem_cons, List.not_mem_nil, false_imp_iff, implies_true]
    decide
  have hsettled : List.IsChain Parted (settled t) :=
    (isChain_of_checkPairs h.pairs).imp fun a b hab => by
    refine ⟨?_, ?_⟩
    · rintro rfl
      rw [← Bool.not_eq_true]
      exact fun hsign => hab (hforbidden a (by simpa [isArithmetic] using hsign))
    · rintro rfl
      exact ⟨by rintro rfl; exact hab (by decide), by rintro rfl; exact hab (by decide)⟩
  have hlead : ∀ e ∈ leadingPairs, e.2.2 = [e.1] ∧ isArithmetic e.1 = false ∧ e.1 ≠ '.' ∧
      e.1 ≠ ')' := by decide
  have hkept : KeptBy leadingPairs (List.IsChain Parted) := keptBy_isChain fun e he => by
    obtain ⟨hr, hsign, hpoint, hclose⟩ := hlead e he
    exact ⟨hr, fun b => ⟨fun _ => hsign, fun _ => ⟨hpoint, hclose⟩⟩⟩
  rw [h.result]
  exact dropPlus_induction hkept (fun t ht => ht.tail) hsettled

/-- Where an empty group goes, no two points come together. -/
theorem not_endsAfterLetter_of_dropEmptyGroup? {v : Vocabulary} {w : Text}
    (hu : List.IsChain Parted u) (hw : dropEmptyGroup? v [] u = some w) :
    ¬ EndsAfterLetter ['.', '.'] w := by
  rintro ⟨rest, c, -, hends⟩
  obtain ⟨left, right, rfl, rfl, -⟩ := exists_of_dropEmptyGroup? hw
  have hright := (List.isChain_append_cons_cons.mp hu).2.2
  have hchain : List.IsChain (fun a b => b = '.' → a ≠ '.') (left ++ right) := by
    refine List.isChain_append.mpr ⟨hu.left_of_append.imp fun a b hab hb => (hab.2 hb).1,
      hright.tail.imp fun a b hab hb => (hab.2 hb).1, fun a _ b hb hpoint => ?_⟩
    obtain ⟨others, rfl⟩ := List.head?_eq_some_iff.mp hb
    exact absurd rfl (hright.rel.2 hpoint).2
  have hpoints : left ++ right = (rest ++ [c]) ++ '.' :: '.' :: [] := by simpa using hends
  rw [hpoints] at hchain
  exact (List.isChain_append_cons_cons.mp hchain).2.1 rfl rfl

/-- Tidying keeps the words besides the hollow groups and the points before other signs. -/
theorem ReadsPoints.tidyFrom (hf : ReadsPoints f) (hend : ¬ EndsAfterLetter ['.', '.'] t)
    (h : tidyFrom (.ofLibrary l) t = .ok n) :
    f (dropPoints n) = f (dropPoints (withoutHollowGroups t)) := by
  have hdropped := hf.dropped
  simp only [← withoutEmptyGroups_false]
  obtain ⟨t', u, ⟨hwords, hend'⟩, hsettles, hnone, hwrite⟩ := tidyFrom_cases
    (P := fun s => f (dropPoints (withoutEmptyGroups (fun _ => false) s)) =
      f (dropPoints (withoutEmptyGroups (fun _ => false) t)) ∧ ¬ EndsAfterLetter ['.', '.'] s)
    (fun s u w ⟨hs, _⟩ hsettles hw => by
      refine ⟨?_, not_endsAfterLetter_of_dropEmptyGroup? hsettles.parted hw⟩
      obtain ⟨left, right, rfl, rfl, -⟩ := exists_of_dropEmptyGroup? hw
      rw [← withoutEmptyGroups_empty rfl, hdropped.settles hsettles, hs]) ⟨rfl, hend⟩ h
  have hparted := hsettles.parted
  have hwritten := writeProducts_eq_ok hwrite
  have hfilled : withoutEmptyGroups (fun _ => false) u = u :=
    withoutEmptyGroups_eq_self (hparted.imp fun a b hab => hab.1) fun left right hu =>
      absurd hu (ne_empty_of_written (dropEmptyGroup?_eq_none_iff.mp hnone) hwritten left right)
  have hinside : PointsInside (dropPoints u) := pointsInside_dropPoints hsettles.allowed
    (hparted.imp fun a b hab hb => (hab.2 hb).1) (hsettles.not_endsAfterLetter hend')
  calc f (dropPoints n) = f (dropPoints (dropPoints u)) := hdropped.written hwritten hinside
    _ = f (dropPoints u) := by rw [dropPoints_dropPoints]
    _ = f (dropPoints (withoutEmptyGroups (fun _ => false) u)) := by rw [hfilled]
    _ = f (dropPoints (withoutEmptyGroups (fun _ => false) t')) := hdropped.settles hsettles
    _ = f (dropPoints (withoutEmptyGroups (fun _ => false) t)) := hwords

theorem ReadsPoints.canonical (hf : ReadsPoints f)
    (hend : ¬ EndsAfterLetter ['.', '.'] (lowercase (withoutBlanks t)))
    (h : canonical (.ofLibrary l) t = .ok n) :
    f (dropPoints n) = f (dropPoints (withoutHollowGroups (lowercase (withoutBlanks t)))) := by
  obtain ⟨u, hu, horder, -, hn⟩ := inOrder_of_canonical h
  have hdigit := horder.afterDigit.tail
  have hend' : ¬ EndsAfterLetter ['.', '.'] (withGroups u) := by
    rintro ⟨rest, c, -, hends⟩
    have hpoints : withGroups u = (rest ++ [c]) ++ '.' :: '.' :: [] := by simpa using hends
    rw [hpoints] at hdigit
    exact absurd (isChain_pair hdigit rfl) (by decide)
  calc f (dropPoints n) = f (dropPoints (withoutHollowGroups (withGroups u))) :=
      hf.tidyFrom hend' hn
    _ = f (dropPoints (withGroups u)) := by
      rw [← withoutEmptyGroups_false]; exact hf.dropped.closed horder.closed.tail
    _ = f (dropPoints u) := hf.dropped.withGroups u
    _ = f (dropPoints (withoutHollowGroups (lowercase (withoutBlanks t)))) := hf.tidyFrom hend hu

end Tidying

/-- The names of a tree that was read are the words of what was typed, without white space and in
small letters, once the groups without operands and the points before other signs are gone. A letter
or an underscore with two points after it at the end is left out: there reading writes a zero at the
end of the word. -/
theorem names_of_read {t : Text} {e : Expr} (h : Expr.read .standard t = .ok e)
    (hend : ¬ EndsAfterLetter ['.', '.'] (lowercase (withoutBlanks t))) :
    (e.places []).map Prod.fst =
      words (dropPoints (withoutHollowGroups (lowercase (withoutBlanks t)))) := by
  obtain ⟨n, hn, he⟩ := bind_eq_ok.mp h
  have hv : Vocabulary.standard.Identified := (Workspace.wellFormed_run .full []).identified
  have hnames : e.names = words n := readsWords_words.names_eq hv he
  have hpointed : e.names = pointedWords (dropPoints n) :=
    readsPoints_pointedWords.dropped.names_eq hv he
  have hsame := readsPoints_pointedWords.canonical hend hn
  have hnone :
      ['.'] ∉ pointedWords (dropPoints (withoutHollowGroups (lowercase (withoutBlanks t)))) := by
    rw [← hsame, ← hpointed, hnames]
    exact fun hmem =>
      absurd (isWordCharacter_of_mem_words hmem (List.mem_singleton_self '.')) (by decide)
  rw [words_eq_pointedWords hnone, ← hsame, ← hpointed]
  rfl

theorem names_of_read_series :
    ∃ e : Expr, Expr.read .standard "x(+())Y - Sum(k._a, k, b, e)".toList = .ok e ∧
    (e.places []).map Prod.fst =
      ["xy".toList, "sum".toList, "k_a".toList, "k".toList, "b".toList, "e".toList] := by
  have hread : Expr.read .standard "x(+())Y - Sum(k._a, k, b, e)".toList =
      .ok (.binary .add (.identifier "xy".toList)
        (.negate (.series .sum "k".toList [.identifier "k_a".toList, .identifier "b".toList,
          .constant .e]))) := by with_unfolding_all rfl
  have hend : ¬ EndsAfterLetter ['.', '.']
      (lowercase (withoutBlanks "x(+())Y - Sum(k._a, k, b, e)".toList)) := by
    rintro ⟨rest, c, -, h⟩
    have hlast := congrArg List.getLast? h
    simp at hlast
    exact absurd hlast (by decide)
  exact ⟨_, hread, (names_of_read hread hend).trans (by decide)⟩

/-- Neither an empty group nor a point before an underscore parts two words, and of two points after
a letter at the end one is left over, which gets its zero. -/
theorem names_of_empty_group :
    (Expr.read .standard "x()y".toList = .ok (.identifier "xy".toList) ∧
      ((Expr.identifier "xy".toList).places []).map Prod.fst ≠
        words (lowercase (withoutBlanks "x()y".toList))) ∧
    (Expr.read .standard "x._y".toList = .ok (.identifier "x_y".toList) ∧
      ((Expr.identifier "x_y".toList).places []).map Prod.fst ≠
        words (lowercase (withoutBlanks "x._y".toList))) ∧
    Expr.read .standard "x..".toList = .ok (.identifier "x0".toList) ∧
      ((Expr.identifier "x0".toList).places []).map Prod.fst ≠
        words (lowercase (withoutBlanks "x..".toList)) :=
  ⟨⟨by with_unfolding_all rfl, by decide⟩, ⟨by with_unfolding_all rfl, by decide⟩,
    by with_unfolding_all rfl, by decide⟩

end Abacus
