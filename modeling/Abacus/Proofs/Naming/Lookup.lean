import Abacus.Proofs.Canonical.EmptyCalls
import Abacus.Proofs.Naming.Places
import Abacus.Proofs.Naming.Products

/-! What is looked up while a text is read. Arguments are checked, products written out and trees
built by the meaning of the words of the text that is gone through, and other vocabularies in which
these mean the same serve as well. -/

namespace Abacus

/-- The same member of the library, or formulas with as many parameters. -/
structure MeansSame (v v' : Vocabulary) (name : Text) : Prop where
  member : v.library.find? name = v'.library.find? name
  arity : (v.formulas.find? name).map Formula.arity = (v'.formulas.find? name).map Formula.arity

/-- Every name means the same, unless it is an identifier that is not among the known ones. -/
def SameFor (v v' : Vocabulary) (known : List Text) : Prop :=
  ∀ name, (isIdentifier name = true → name ∈ known) → MeansSame v v' name

section Meaning

variable {v v' : Vocabulary} {name : Text}

theorem MeansSame.isCallable (h : MeansSame v v' name) :
    v.isCallable name = v'.isCallable name := by
  have hcontains := congrArg Option.isSome h.arity
  rw [Option.isSome_map, Option.isSome_map] at hcontains
  rw [Vocabulary.isCallable, Vocabulary.isCallable, h.member, Registry.contains,
    Registry.contains, hcontains]

theorem MeansSame.arity? (h : MeansSame v v' name) : v.arity? name = v'.arity? name := by
  have hexact (v : Vocabulary) : ((v.formulas.find? name).map fun f => Arity.exactly f.arity) =
      ((v.formulas.find? name).map Formula.arity).map Arity.exactly := by rw [Option.map_map]; rfl
  rw [Vocabulary.arity?, Vocabulary.arity?, h.member, hexact v, hexact v', h.arity]

theorem MeansSame.ofCall (h : MeansSame v v' name) (args : List Expr) :
    Expr.ofCall v name args = Expr.ofCall v' name args := by
  have harity := h.arity
  rw [Expr.ofCall, Expr.ofCall, h.member]
  cases hf : v.formulas.find? name with
  | none =>
    rw [hf] at harity
    rw [Option.map_eq_none_iff.mp harity.symm]
  | some f =>
    rw [hf] at harity
    obtain ⟨f', hf', hsame⟩ := Option.map_eq_some_iff.mp harity.symm
    simp only [hf', hsame]

theorem SameFor.mono {known others : List Text} (h : SameFor v v' known) (hsub : others ⊆ known) :
    SameFor v v' others :=
  fun name hname => h name fun hid => hsub (hname hid)

end Meaning

section Words

variable {before right name : Text}

theorem nameBefore_mem_words (left right : Text)
    (hname : isIdentifier (nameBefore left.reverse) = true) :
    nameBefore left.reverse ∈ words (left ++ '(' :: right) := by
  obtain ⟨before, run, rfl, hbefore, hrun⟩ := exists_last_run isWordCharacter left
  rw [nameBefore_run hbefore hrun] at hname ⊢
  have hne : run.dropWhile Char.isDigit ≠ [] := by
    intro hnil
    rw [hnil] at hname
    cases hname
  have hmem : run.dropWhile Char.isDigit ∈ words run := by
    rw [words, trimmedRuns_run hrun]
    simpa using hne
  rw [readsWords_words.split (by decide), List.mem_append]
  refine .inl ?_
  rcases List.eq_nil_or_concat' before with rfl | ⟨first, c, rfl⟩
  · exact hmem
  · rw [List.append_assoc, words, List.singleton_append,
      trimmedRuns_append_cons (hbefore c (by simp)), List.mem_append]
    exact .inr hmem

theorem ReadsWords.mem_of_endsRun {f : Text → List Text} (hf : ReadsWords f)
    (hbefore : EndsRun [] before) (hname : isIdentifier name = true)
    (hright : ∀ c ∈ right.head?, isOperandCharacter c = false) :
    name ∈ f (before ++ (name ++ right)) := by
  obtain ⟨first, number, rfl, hfirst, hnumber⟩ := hbefore
  rw [List.append_nil, List.append_assoc, hf.append_of_last hfirst, hf.number hnumber,
    hf.append_of_first name hright, hf.identifier hname]
  simp

theorem SameFor.isCallable {v v' : Vocabulary}
    (h : SameFor v v' (words (before ++ (name ++ right)))) (hbefore : EndsRun [] before)
    (hright : ∀ c ∈ right.head?, isOperandCharacter c = false) :
    v.isCallable name = v'.isCallable name :=
  (h name fun hid => readsWords_words.mem_of_endsRun hbefore hid hright).isCallable

end Words

section Passes

variable {v v' : Vocabulary} {before word first t : Text} {inNumber : Bool}

theorem checkArguments_same (frames : List Frame) (h : SameFor v v' (words (before.reverse ++ t))) :
    checkArguments v before frames t = checkArguments v' before frames t := by
  induction t generalizing before frames with
  | nil => rfl
  | cons c rest ih =>
    have hrest : SameFor v v' (words ((c :: before).reverse ++ rest)) := by simpa using h
    have hframe : c = '(' → Frame.opened v before rest = Frame.opened v' before rest := by
      rintro rfl
      have hname : MeansSame v v' (nameBefore before) := h _ fun hid => by
        have hmem := nameBefore_mem_words before.reverse rest (by simpa using hid)
        rwa [List.reverse_reverse] at hmem
      rw [Frame.opened, Frame.opened, hname.arity?]
    simp only [checkArguments]
    split
    · next hopen => rw [hframe hopen, ih _ hrest]
    split
    · cases frames with
      | nil => rfl
      | cons frame outer =>
        cases frame with
        | group => rfl
        | call => exact ih _ hrest
    split
    · cases frames with
      | nil => exact ih _ hrest
      | cons frame outer =>
        cases frame with
        | group => exact ih _ hrest
        | call => simp only [ih _ hrest]
    · exact ih _ hrest

/-- A word is looked up where a sign ends it. Before it a number or a sign has ended. -/
theorem separateWords_same (hfirst : EndsRun [] first)
    (h : SameFor v v' (words (first ++ (word.reverse ++ t)))) :
    separateWords v word inNumber t = separateWords v' word inNumber t := by
  induction t generalizing first word inNumber with
  | nil => rw [separateWords, separateWords, h.isCallable hfirst (by simp)]
  | cons c rest ih =>
    simp only [separateWords]
    split
    · next hrun =>
      split
      · next hword =>
        subst hword
        rw [ih (hfirst.digit hrun) (by simpa using h)]
      · rw [ih hfirst (by simpa using h)]
    next hrun =>
    split
    · next hname =>
      split
      · next hword =>
        obtain ⟨rfl, -⟩ := hword
        rw [ih hfirst (by simpa using h)]
      · rw [ih hfirst (by simpa using h)]
    next hname =>
    have hstop : isOperandCharacter c = false := not_operand_iff.mpr ⟨hrun, hname⟩
    split
    · next hword =>
      subst hword
      rw [ih (endsRun_of_stop hstop) (by simpa using h)]
    · -- the word ends here, and the next one begins after the sign
      have hended : EndsRun [] (first ++ word.reverse ++ [c]) := endsRun_of_stop hstop
      have hnext : separateWords v [] false rest = separateWords v' [] false rest :=
        ih hended (by simpa using h)
      rw [h.isCallable hfirst (by simpa using hstop), hnext]

/-- The products are written out by the words of the text without the points before other signs. -/
theorem writeProducts_same (hpoints : List.IsChain AfterDigit ('(' :: dropPoints t))
    (h : SameFor v v' (words (dropPoints t))) : writeProducts v t = writeProducts v' t := by
  have harguments : checkArguments v [] [] (dropPoints t) =
      checkArguments v' [] [] (dropPoints t) := checkArguments_same [] h
  have hseparated := readsWords_words.separated hpoints
  have hwords : separateWords v [] false
      (separateGroups none (separateNumbers none .neither (dropPoints t))) = separateWords v' []
        false (separateGroups none (separateNumbers none .neither (dropPoints t))) :=
    separateWords_same endsRun_nil
      (show SameFor v v' (words (separateGroups none _)) by rwa [hseparated])
  rw [writeProducts, writeProducts, harguments]
  simp only [hwords]

end Passes

/-- The texts that a tree is built from. -/
def Split.parts : Split → List Text
  | leaf _ => []
  | negate operand | factorial operand => [operand]
  | binary _ left right => [left, right]
  | call _ args => args

section Trees

variable {v v' : Vocabulary} {s : Split} {t u name : Text} {args : List Text}

theorem Split.length_le_size (hu : u ∈ s.parts) : u.length ≤ s.size := by
  cases s with
  | leaf e => cases hu
  | negate operand | factorial operand => exact (congrArg List.length (List.mem_singleton.mp hu)).le
  | binary op left right =>
    simp only [parts, List.mem_cons, List.not_mem_nil, or_false] at hu
    rcases hu with rfl | rfl <;> simp [size]
  | call name args => exact (length_lt_totalLength hu).le

theorem ReadsWords.subset_of_makes {f : Text → List Text} (hf : ReadsWords f) (h : Split.Makes s t)
    (hu : u ∈ s.parts) : f u ⊆ f t := by
  cases h with
  | literal | constant | identifier => cases hu
  | negate operand =>
    obtain rfl := List.mem_singleton.mp hu
    rw [hf.cons (by decide)]
    exact List.Subset.refl _
  | factorial operand =>
    obtain rfl := List.mem_singleton.mp hu
    rw [hf.concat (by decide)]
    exact List.Subset.refl _
  | binary op left right =>
    simp only [Split.parts, List.mem_cons, List.not_mem_nil, or_false] at hu
    rw [hf.split (by cases op <;> decide)]
    rcases hu with rfl | rfl
    · exact List.subset_append_left _ _
    · exact List.subset_append_right _ _
  | call name inside =>
    rw [hf.split (by decide), hf.concat (by decide), ← hf.argumentsIn inside]
    intro word hword
    exact List.mem_append_right _ (List.mem_flatten.mpr ⟨f u, List.mem_map_of_mem hu, hword⟩)

theorem ReadsWords.mem_of_call {f : Text → List Text} (hf : ReadsWords f)
    (h : Split.Makes (.call name args) t) (hname : isIdentifier name = true) : name ∈ f t := by
  cases h with
  | call name inside =>
    rw [hf.split (by decide), hf.identifier hname]
    exact List.mem_append_left _ (List.mem_singleton_self name)

theorem buildAll_same {ts : List Text} (h : ∀ t ∈ ts, Expr.build v t = Expr.build v' t) :
    Expr.buildAll v ts = Expr.buildAll v' ts := by
  induction ts with
  | nil => simp only [Expr.buildAll]
  | cons t rest ih =>
    obtain ⟨ht, hrest⟩ := List.forall_mem_cons.mp h
    rw [Expr.buildAll, Expr.buildAll, ht, ih hrest]

/-- The tree of a text is built by its words. -/
theorem build_same (h : SameFor v v' (words t)) : Expr.build v t = Expr.build v' t := by
  induction hn : t.length using Nat.strong_induction_on generalizing t with
  | _ n ih =>
    subst hn
    cases hs : Split.ofText (withoutOuterGroups t) with
    | error e => rw [Expr.build_of_error hs, Expr.build_of_error hs]
    | ok s =>
      have hmakes := Split.makes_of_ofText hs
      have hpart (u : Text) (hu : u ∈ s.parts) : Expr.build v u = Expr.build v' u := by
        have hsub := readsWords_words.subset_of_makes hmakes hu
        rw [readsWords_words.withoutOuterGroups] at hsub
        have hlength : u.length < t.length :=
          ((Split.length_le_size hu).trans_lt (Split.size_ofText hs)).trans_le
            (length_withoutOuterGroups_le t)
        exact ih u.length hlength (h.mono hsub) rfl
      cases s with
      | leaf e => rw [Expr.build_of_leaf hs, Expr.build_of_leaf hs]
      | negate operand =>
        rw [Expr.build_of_negate hs, Expr.build_of_negate hs, hpart operand (by simp [Split.parts])]
      | factorial operand =>
        rw [Expr.build_of_factorial hs, Expr.build_of_factorial hs,
          hpart operand (by simp [Split.parts])]
      | binary op left right =>
        rw [Expr.build_of_binary hs, Expr.build_of_binary hs, hpart left (by simp [Split.parts]),
          hpart right (by simp [Split.parts])]
      | call name args =>
        have hname : MeansSame v v' name := h name fun hid => by
          have hmem := readsWords_words.mem_of_call hmakes hid
          rwa [readsWords_words.withoutOuterGroups] at hmem
        have hargs : Expr.buildAll v args = Expr.buildAll v' args := buildAll_same hpart
        rw [Expr.build_of_call hs, Expr.build_of_call hs, hargs]
        simp only [hname.ofCall]

end Trees

end Abacus
