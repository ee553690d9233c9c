import Abacus.Proofs.Canonical.Adjacent

/-! The layout of a canonical text. -/

namespace Abacus

/-- What may follow what: besides, a plus follows an operand only, and what may not stand together
does not. -/
def MayFollow (a b : Char) : Prop :=
  (b = '(' → a ≠ ')' ∧ a ≠ '!') ∧ (b ≠ '.' → Allowed a b) ∧ BinaryPlus unaryPlaces a b

namespace Rules

/-- Both rules. -/
def inf (r s : Rules) : Rules where
  follows a b := r.follows a b ∧ s.follows a b
  run t := r.run t ∧ s.run t
  group g := r.group g ∧ s.group g
  call n g := r.call n g ∧ s.call n g

/-- The rules of a canonical text. -/
def canonical (v : Vocabulary) : Rules := { normal v with follows := MayFollow }

end Rules

section

variable {r s : Rules} {p q p' q' : Char} {items : List Item}

theorem Laid.inf (h : Laid r p items q) (h' : Laid s p items q') : Laid (r.inf s) p items q := by
  induction h generalizing q' with
  | nil => exact .nil _
  | sign hs hf _ ih => cases h' with | sign _ hf' h' => exact .sign hs ⟨hf, hf'⟩ (ih h')
  | run hf ht _ ih => cases h' with | run hf' ht' h' => exact .run ⟨hf, hf'⟩ ⟨ht, ht'⟩ (ih h')
  | group hf hg hinner hend _ ihinner ih =>
    cases h' with
    | group hf' hg' hinner' hend' h' =>
      obtain rfl := hinner.ending_unique hinner'
      exact .group ⟨hf, hf'⟩ ⟨hg, hg'⟩ (ihinner hinner') ⟨hend, hend'⟩ (ih h')
  | call hf hc hinner hend _ ihinner ih =>
    cases h' with
    | call hf' hc' hinner' hend' h' =>
      obtain rfl := hinner.ending_unique hinner'
      exact .call ⟨hf, hf'⟩ ⟨hc, hc'⟩ (ihinner hinner') ⟨hend, hend'⟩ (ih h')

end

/-- A text whose layout is that of a canonical text. -/
structure Normal (v : Vocabulary) (items : List Item) : Prop where
  shape : Compact items
  noComma : commas items = 0
  laid : ∃ q, Laid (.canonical v) '(' items q ∧ MayFollow q ')'

section

variable {v : Vocabulary} {t u n : Text}

theorem Compact.trimmed {items others : List Item} (h : Compact items) (ht : Trimmed items others) :
    Compact others := by
  refine ⟨h.1.thinned ht.thinned, ?_⟩
  cases ht with
  | @replace first x y last hx hy hempty =>
    intro hmem
    refine h.2 ?_
    simp only [List.mem_append, List.mem_cons] at hmem ⊢
    rcases hmem with hmem | hmem | hmem
    · exact .inl hmem
    · exact .inr (.inl (hempty hmem.symm).symm)
    · exact .inr (.inr hmem)

theorem InOrder.compact (hv : v.Identified) (h : InOrder v AfterNegatives t)
    (hnone : dropEmptyGroup? v [] t = none) : InOrder v Compact t := by
  obtain ⟨items, rfl, hshape, q, hq⟩ := h
  rcases hq.dropEmptyGroup? hv [] (by simp) [] with ⟨others, q', htext, -⟩ | ⟨hlaid, hfull, -⟩
  · rw [List.append_nil, hnone] at htext
    cases htext
  · exact ⟨items, rfl, ⟨hshape, hfull⟩, q, hlaid⟩

theorem InOrder.dropEmptyGroup? {w : Text} (hv : v.Identified) (h : InOrder v AfterNegatives t)
    (hsome : dropEmptyGroup? v [] t = some w) : InOrder v AfterNegatives w := by
  obtain ⟨items, rfl, hshape, q, hq⟩ := h
  rcases hq.dropEmptyGroup? hv [] (by simp) [] with ⟨others, q', htext, hlaid, hthin⟩
    | ⟨-, -, htext⟩
  · rw [List.append_nil, List.append_nil, hsome] at htext
    exact ⟨others, (Option.some.inj htext).symm, hshape.thinned hthin, q', hlaid⟩
  · rw [List.append_nil, hsome] at htext
    simp [Abacus.dropEmptyGroup?] at htext

theorem Written.eq (hv : v.Identified) (h : InOrder v Compact (dropPoints u)) (hw : Written v u n) :
    n = dropPoints u ∧ checkNumbers 0 false 0 n = .ok () ∧
      ∃ items q, textOf items = n ∧ Compact items ∧ commas items = 0 ∧
        Laid (.normal v) '(' items q := by
  have hgroups : separateGroups none (dropPoints u) = dropPoints u := by
    rw [separateGroups_none]
    exact separateGroups_eq_self h.closed
  obtain ⟨items, htext, hshape, q, hq⟩ := h
  have hnumbers : separateNumbers none .neither (dropPoints u) = dropPoints u := by
    obtain ⟨b, after, heq⟩ := hq.separateNumbers hv (a := '(') .neither fun _ => ⟨rfl, rfl⟩
    have hall := heq [] (by simp)
    rw [separateNumbers_none, ← htext]
    simpa [separateNumbers] using hall
  have hwords := hw.words
  have hpoints := hw.numbers
  rw [hnumbers, hgroups, ← htext] at hwords hpoints
  obtain ⟨w, rfl, hnil, hvalue⟩ :=
    hq.separateWords hv (show ∀ c ∈ ([] : Text).head?, c = ')' by simp) (by simpa using hwords)
  obtain rfl : [] = w := by simpa [separateWords] using hnil
  have harguments := hw.arguments
  rw [← htext] at harguments
  obtain ⟨hnormal, hcommas, -⟩ := hvalue.checkArguments hv (by simp)
    (show checkArguments v [] [] (textOf items ++ []) = .ok () by simpa using harguments)
  rw [List.append_nil]
  refine ⟨htext, hpoints, items, q, rfl, hshape, ?_, hnormal⟩
  by_contra hne
  exact hcommas hne

theorem may_follow_of_chain (h : List.IsChain Allowed ('(' :: (t ++ [')'])))
    (hplus : List.IsChain (BinaryPlus unaryPlaces) ('(' :: t)) :
    List.IsChain (fun a b => (b ≠ '.' → Allowed a b) ∧ BinaryPlus unaryPlaces a b)
      ('(' :: (t ++ [')'])) := by
  refine (isChain_and h (S := BinaryPlus unaryPlaces) ?_).imp fun a b hab => ⟨fun _ => hab.1, hab.2⟩
  rw [← List.cons_append]
  refine List.isChain_append.mpr ⟨hplus, .singleton _, fun x _ y hy he => ?_⟩
  obtain rfl : ')' = y := by simpa using hy
  exact absurd he (by decide)

theorem dropPlus_ne_nil (hne : t ≠ []) (hlast : t.getLast? ≠ some '+') : dropPlus t ≠ [] := by
  have hkept : KeptBy leadingPairs fun t => t ≠ [] ∧ t.getLast? ≠ some '+' := by
    intro e he left right h
    have hright : right ≠ [] := by
      rintro rfl
      simp only [leadingPairs, List.mem_cons, List.not_mem_nil, or_false] at he
      rcases he with rfl | rfl | rfl <;> simp at h
    refine ⟨by simp [hright], ?_⟩
    rw [List.getLast?_append_of_ne_nil _ (by simp)] at h
    obtain ⟨x, right, rfl⟩ := List.exists_cons_of_ne_nil hright
    rw [← List.append_assoc, List.getLast?_append_of_ne_nil _ (by simp)]
    simpa using h.2
  refine (dropPlus_induction hkept (fun t h => ?_) ⟨hne, hlast⟩).1
  cases t with
  | nil => simp at h
  | cons x t => exact ⟨by simp, by simpa using h.2⟩

theorem dropPoints_ne_nil (hne : t ≠ []) : dropPoints t ≠ [] := by
  induction t with
  | nil => exact absurd rfl hne
  | cons a t ih =>
    cases t with
    | nil => exact hne
    | cons b rest =>
      rw [dropPoints]
      split
      · exact ih (by simp)
      · simp

/-- A canonical text is what the last round of tidying writes, and that is in order. -/
theorem exists_written_of_canonical (hv : v.Identified) (h : canonical v t = .ok n) :
    ∃ t' u, InOrder v AfterNegatives t' ∧
    Settles t' u ∧ InOrder v Compact (dropPoints u) ∧ Written v u n ∧ ∀ c ∈ n, IsCanonical c := by
  obtain ⟨w, -, hw, hchars, htidy⟩ := inOrder_of_canonical h
  obtain ⟨t', u, ht', hsettles, hnone, hwrite⟩ := tidyFrom_cases (P := InOrder v AfterNegatives)
    (fun t u w ht hs hw => (ht.settles hv hs).dropEmptyGroup? hv hw) hw htidy
  refine ⟨t', u, ht', hsettles, ?_, writeProducts_eq_ok hwrite,
    canonical_of_tidyFrom (fun c hc => (hchars c hc).2) htidy⟩
  exact ((ht'.settles hv hsettles).compact hv hnone).dropPoints hv fun _ _ => Compact.trimmed

/-- A canonical text is not empty and has the layout of one, and its characters and neighbours are
in order. -/
theorem exists_normal_of_canonical (hv : v.Identified) (h : canonical v t = .ok n) :
    n ≠ [] ∧ ∃ items, textOf items = n ∧ Normal v items ∧ (∀ c ∈ n, IsCanonical c) ∧
      List.IsChain Allowed ('(' :: (n ++ [')'])) ∧ List.IsChain Neat ('(' :: n) := by
  obtain ⟨t', u, ht', hsettles, hdropped, hwritten, hchars⟩ := exists_written_of_canonical hv h
  have hu := ht'.settles hv hsettles
  obtain ⟨hn, -, items, q, htext, hshape, hcommas, hlaid⟩ := hwritten.eq hv hdropped
  obtain ⟨hallowed, hplus⟩ : List.IsChain Allowed ('(' :: (n ++ [')'])) ∧
      List.IsChain (BinaryPlus unaryPlaces) ('(' :: n) := by
    rw [hn]
    refine adjacent_dropPoints hu.afterDigit ?_ ?_
    · rw [hsettles.result]
      exact allowed_dropPlus (allowed_settled hv ht' hsettles)
    · rw [hsettles.result]
      exact binaryPlus_dropPlus (binaryPlus_settled hv ht' hsettles)
  have hneat : List.IsChain Neat ('(' :: n) := by
    rw [hn]
    exact (hu.dropped hv).neat
  have hloose : Loose items :=
    (hlaid.imp (s := .loose) (fun _ _ _ => trivial) (fun _ h => h.1.loose) (fun _ _ => trivial)
      fun _ _ h => h.1.loose).loose
  obtain ⟨m, hm⟩ := hloose
  obtain ⟨q', hfollow, hend⟩ :=
    hm.of_isChain (R := fun a b => (b ≠ '.' → Allowed a b) ∧ BinaryPlus unaryPlaces a b)
      (fun a => ⟨fun _ hmem => by simp [forbiddenPairs] at hmem, fun h => absurd h (by decide)⟩)
      (fun b =>
        ⟨fun hb hmem => by simp [forbiddenPairs] at hmem; exact hb hmem, fun _ => by decide⟩)
      (a := '(') (by rw [htext]; exact may_follow_of_chain hallowed hplus)
  obtain rfl := hlaid.ending_unique hfollow
  have hne : n ≠ [] := by
    rw [hn, hsettles.result]
    refine dropPoints_ne_nil (dropPlus_ne_nil ?_ fun hlast => ?_)
    · intro hnil
      have htrivial := hsettles.notTrivial
      rw [hnil] at htrivial
      cases htrivial
    · exact getLast_settled hv ht' (not_last_of_checkEnds hsettles.ends) '+' hlast (by decide)
  refine ⟨hne, items, htext,
    ⟨hshape, hcommas, q, ?_, fun h => absurd h (by decide), hend.1, hend.2⟩, hchars,
    hallowed, hneat⟩
  exact (hlaid.inf hfollow).imp (fun a b h => ⟨h.1, h.2.1, h.2.2⟩) (fun _ h => h.1) (fun _ h => h.1)
    fun _ _ h => h.1

end

end Abacus
