import Abacus.Proofs.Canonical.EmptyGroups

/-! Numbers and words at the end of a text. Tidying keeps them there, and where the products are
written out they decide what becomes of an operand that follows. -/

namespace Abacus

/-- The text ends with this word, before which only digits and points belong to the same operand. -/
def EndsRun (word t : Text) : Prop := ∃ before run, t = before ++ (run ++ word) ∧
  (∀ c ∈ before.getLast?, isOperandCharacter c = false) ∧ ∀ c ∈ run, c.isDigit = true ∨ c = '.'

section Runs

variable {word t : Text}

theorem operand_of_run {run : Text} (hrun : ∀ c ∈ run, c.isDigit = true ∨ c = '.')
    (hop : ∀ c ∈ word, isOperandCharacter c = true) :
    ∀ c ∈ run ++ word, isOperandCharacter c = true := by
  intro c hc
  rcases List.mem_append.mp hc with hc | hc
  · exact isOperandCharacter_iff.mpr ((hrun c hc).imp_right .inl)
  · exact hop c hc

theorem keptBy_endsRun {pairs : List (Char × Char × Text)}
    (hop : ∀ c ∈ word, isOperandCharacter c = true)
    (hpairs : ∀ e ∈ pairs, isOperandCharacter e.1 = false ∧
      (isOperandCharacter e.2.1 = true → e.2.2 = [e.1, '0', e.2.1]) ∧
      (isOperandCharacter e.2.1 = false → e.2.2.getLast?.map isOperandCharacter = some false)) :
    KeptBy pairs (EndsRun word) := by
  rintro ⟨x, y, r⟩ he left right ⟨before, run, ht, hbefore, hrun⟩
  obtain ⟨hx, hpoint, hsign⟩ := hpairs _ he
  dsimp only at ht hx hpoint hsign ⊢
  have hbody := operand_of_run hrun hop
  have hnot (hmem : x ∈ run ++ word) : False := by
    rw [hbody x hmem] at hx
    cases hx
  rcases List.append_eq_append_iff.mp ht with ⟨others, rfl, hothers⟩ | ⟨others, rfl, hothers⟩
  · cases others with
    | nil =>
      rw [List.nil_append] at hothers
      exact (hnot (by rw [← hothers]; simp)).elim
    | cons z others =>
      obtain ⟨rfl, hbehind⟩ := List.cons.inj hothers
      cases others with
      | nil =>
        -- the point of the pair begins the operand
        replace hbehind : y :: right = run ++ word := hbehind
        have hy : isOperandCharacter y = true := hbody y (by rw [← hbehind]; simp)
        refine ⟨left ++ [x], '0' :: run, ?_, by simpa using hx, ?_⟩
        · simp [hpoint hy, ← hbehind]
        · simpa [show '0'.isDigit = true from rfl] using hrun
      | cons z others =>
        obtain ⟨rfl, rfl⟩ := List.cons.inj hbehind
        refine ⟨left ++ (r ++ others), run, by simp, ?_, hrun⟩
        rcases List.eq_nil_or_concat' others with rfl | ⟨first, c, rfl⟩
        · obtain ⟨c, hlast, hc⟩ := Option.map_eq_some_iff.mp (hsign (hbefore y (by simp)))
          obtain ⟨first, rfl⟩ := List.getLast?_eq_some_iff.mp hlast
          simpa using hc
        · exact fun d hd => hbefore d (by simpa [List.getLast?_cons] using hd)
  · exact (hnot (by rw [hothers]; simp)).elim

protected theorem EndsRun.dropPoints (hword : ∀ c ∈ word, isWordCharacter c = true)
    (h : EndsRun word t) : EndsRun word (dropPoints t) := by
  refine dropPoints_induction (P := EndsRun word) ?_ h
  rintro left b right - ⟨before, run, ht, hbefore, hrun⟩
  have hnot (hmem : '.' ∈ word) : False := absurd (hword '.' hmem) (by decide)
  have hinside (others : Text) (hothers : run ++ word = others ++ '.' :: b :: right) :
      EndsRun word ((before ++ others) ++ b :: right) := by
    rcases List.append_eq_append_iff.mp hothers with ⟨rest, -, rfl⟩ | ⟨rest, rfl, hrest⟩
    · exact (hnot (by simp)).elim
    · cases rest with
      | nil => exact (hnot (by rw [← List.nil_append word, ← hrest]; simp)).elim
      | cons z rest =>
        obtain ⟨rfl, hbehind⟩ := List.cons.inj hrest
        refine ⟨before, others ++ rest, by simpa using hbehind, hbefore, fun c hc => hrun c ?_⟩
        simp only [List.mem_append, List.mem_cons] at hc ⊢
        tauto
  rcases List.append_eq_append_iff.mp ht with ⟨others, rfl, hothers⟩ | ⟨others, rfl, hothers⟩
  · cases others with
    | nil => simpa using hinside [] hothers.symm
    | cons z others =>
      obtain ⟨rfl, hbehind⟩ := List.cons.inj hothers
      cases others with
      | nil => exact absurd (hbefore '.' (by simp)) (by decide)
      | cons z others =>
        obtain ⟨rfl, rfl⟩ := List.cons.inj hbehind
        exact ⟨left ++ b :: others, run, by simp,
          fun c hc => hbefore c (by simpa [List.getLast?_cons] using hc), hrun⟩
  · exact hinside others hothers

protected theorem EndsRun.settled (hword : ∀ c ∈ word, isWordCharacter c = true)
    (h : EndsRun word t) : EndsRun word (dropPlus (settled t)) := by
  have hop : ∀ c ∈ word, isOperandCharacter c = true := fun c hc =>
    operand_of_wordCharacter (hword c hc)
  refine dropPlus_induction (keptBy_endsRun hop (by decide)) ?_
    (completePoints_induction (keptBy_endsRun hop (by decide)) ?_
      (collapseSigns_induction (keptBy_endsRun hop (by decide)) h))
  · rintro t ⟨before, run, ht, hbefore, hrun⟩
    cases before with
    | nil =>
      have hplus : '+' ∈ run ++ word := by
        rw [← List.nil_append (run ++ word), ← ht]
        simp
      exact absurd (operand_of_run hrun hop '+' hplus) (by decide)
    | cons z before =>
      obtain ⟨rfl, rfl⟩ := List.cons.inj ht
      refine ⟨before, run, rfl, fun c hc => hbefore c ?_, hrun⟩
      rcases List.eq_nil_or_concat' before with rfl | ⟨first, d, rfl⟩
      · cases hc
      · simpa [List.getLast?_cons] using hc
  · rintro t ⟨before, run, ht, hbefore, hrun⟩
    rcases List.eq_nil_or_concat' word with rfl | ⟨first, c, rfl⟩
    · rcases List.eq_nil_or_concat' run with rfl | ⟨first, c, rfl⟩
      · rw [List.append_nil, List.append_nil] at ht
        exact absurd (hbefore '.' (by rw [← ht]; simp)) (by decide)
      · refine ⟨before, first, ?_, hbefore, fun d hd => hrun d (by simp [hd])⟩
        have hinit := congrArg List.dropLast ht
        simpa [← List.append_assoc] using hinit
    · have hlast := congrArg List.getLast? ht
      simp only [← List.append_assoc, List.getLast?_concat, Option.some.injEq] at hlast
      exact absurd (hword '.' (by rw [hlast]; simp)) (by decide)

end Runs

section Separating

variable {word t : Text}

/-- What the last character belongs to after one more. -/
def Within.after (within : Within) (c : Char) : Within :=
  if c.isDigit then (if within = .word then .word else .number)
  else if c = '.' then .number
  else if isNameStart c then .word
  else .neither

theorem Within.after_of_stop {c : Char} (hc : isOperandCharacter c = false) (within : Within) :
    within.after c = .neither := by
  obtain ⟨hrun, hname⟩ := not_operand_iff.mp hc
  obtain ⟨hdigit, hpoint⟩ := not_or.mp hrun
  rw [Within.after, if_neg hdigit, if_neg hpoint, if_neg hname]

theorem exists_separateNumbers_concat (previous : Option Char) (within : Within) (left : Text)
    (a : Char) :
    ∃ left', ∀ right, separateNumbers previous within (left ++ a :: right) =
      left' ++ a :: separateNumbers (some a) ((left ++ [a]).foldl Within.after within) right := by
  have hstep (previous : Option Char) (within : Within) (c : Char) : ∃ inserted, ∀ rest,
      separateNumbers previous within (c :: rest) =
        inserted ++ c :: separateNumbers (some c) (within.after c) rest := by
    simp only [separateNumbers, Within.after]
    split
    · split
      · exact ⟨[], fun _ => rfl⟩
      · split
        · exact ⟨['*'], fun _ => rfl⟩
        · exact ⟨[], fun _ => rfl⟩
    · split
      · split
        · exact ⟨['*', '0'], fun _ => rfl⟩
        · split
          · exact ⟨[], fun _ => rfl⟩
          · exact ⟨['0'], fun _ => rfl⟩
      · split
        · next hopen =>
          rw [if_neg (by rw [hopen]; decide)]
          split
          · exact ⟨['*'], fun _ => rfl⟩
          · exact ⟨[], fun _ => rfl⟩
        · split
          · exact ⟨[], fun _ => rfl⟩
          · exact ⟨[], fun _ => rfl⟩
  induction left generalizing previous within with
  | nil => exact hstep previous within a
  | cons c left ih =>
    obtain ⟨inserted, hinserted⟩ := hstep previous within c
    obtain ⟨left', hleft⟩ := ih (some c) (within.after c)
    exact ⟨inserted ++ c :: left', fun right => by
      rw [List.cons_append, hinserted, hleft, List.append_assoc, List.cons_append, List.cons_append,
        List.foldl_cons]⟩

theorem exists_separateGroups_concat (previous : Option Char) (left : Text) (a : Char) :
    ∃ left', ∀ right,
    separateGroups previous (left ++ a :: right) = left' ++ a :: separateGroups (some a) right := by
  have hstep (previous : Option Char) (c : Char) : ∃ inserted, ∀ rest,
      separateGroups previous (c :: rest) = inserted ++ c :: separateGroups (some c) rest := by
    simp only [separateGroups]
    split
    · exact ⟨['*'], fun _ => rfl⟩
    · exact ⟨[], fun _ => rfl⟩
  induction left generalizing previous with
  | nil => exact hstep previous a
  | cons c left ih =>
    obtain ⟨inserted, hinserted⟩ := hstep previous c
    obtain ⟨left', hleft⟩ := ih (some c)
    exact ⟨inserted ++ c :: left',
      fun right => by rw [List.cons_append, hinserted, hleft, List.append_assoc, List.cons_append]⟩

/-- A word with nothing but digits and points of the same operand before it; a number if there is
none. -/
structure IsBareWord (word : Text) : Prop where
  first : ∀ c ∈ word.head?, isNameStart c = true
  characters : ∀ c ∈ word, isWordCharacter c = true

theorem separateNumbers_word {previous : Option Char} (ht : ∀ c ∈ t, isWordCharacter c = true) :
    separateNumbers previous .word t = t := by
  induction t generalizing previous with
  | nil => rfl
  | cons c t ih =>
    obtain ⟨hc, ht⟩ := List.forall_mem_cons.mp ht
    rcases isWordCharacter_iff.mp hc with hd | hs
    · rw [separateNumbers, if_pos hd, if_pos rfl, ih ht]
    · have hnot : ¬ c.isDigit = true ∧ c ≠ '.' ∧ c ≠ '(' := by
        refine ⟨fun hd => ?_, ne_of_nameStart hs (by decide), ne_of_nameStart hs (by decide)⟩
        rw [isNameStart_digit hd] at hs
        cases hs
      rw [separateNumbers, if_neg hnot.1, if_neg hnot.2.1, if_neg hnot.2.2, if_pos hs, ih ht]

protected theorem IsBareWord.separateNumbers (h : IsBareWord word) (previous : Option Char)
    (within : Within) : separateNumbers previous within word = word := by
  cases word with
  | nil => rfl
  | cons c rest =>
    have hs := h.first c rfl
    rw [Abacus.separateNumbers, if_neg (isDigit_of_nameStart hs),
      if_neg (ne_of_nameStart hs (by decide)), if_neg (ne_of_nameStart hs (by decide)), if_pos hs,
      separateNumbers_word (List.forall_mem_cons.mp h.characters).2]

theorem IsBareWord.separateNumbers_run (h : IsBareWord word) {run : Text}
    (hrun : ∀ c ∈ run, c.isDigit = true ∨ c = '.') {c : Char} (hc : c.isDigit = true ∨ c = '.') :
    ∃ run', Abacus.separateNumbers (some c) .number (run ++ word) = run' ++ word ∧
      ∀ d ∈ run', d.isDigit = true ∨ d = '.' := by
  induction run generalizing c with
  | nil => exact ⟨[], h.separateNumbers _ _, by simp⟩
  | cons d run ih =>
    obtain ⟨hd, hrun⟩ := List.forall_mem_cons.mp hrun
    obtain ⟨run', hrest, hrun'⟩ := ih hrun hd
    have hgroup : endsGroup (some c) = false := by
      rcases hc with hc | rfl
      · simp [endsGroup, ne_of_digit hc (show ')'.isDigit = false by decide),
          ne_of_digit hc (show '!'.isDigit = false by decide)]
      · rfl
    rw [List.cons_append, Abacus.separateNumbers]
    rcases hd with hd | rfl
    · rw [if_pos hd, if_neg (by decide), if_neg (by simp), hrest]
      exact ⟨d :: run', rfl, by simpa [hd] using hrun'⟩
    · rw [if_neg (by decide), if_pos rfl, hgroup, if_neg (by decide), hrest]
      split
      · exact ⟨'.' :: run', rfl, by simpa using hrun'⟩
      · exact ⟨'0' :: '.' :: run', rfl, by simpa [show '0'.isDigit = true from rfl] using hrun'⟩

theorem IsBareWord.separateNumbers_operand (h : IsBareWord word) {run : Text}
    (hrun : ∀ c ∈ run, c.isDigit = true ∨ c = '.') (previous : Option Char) :
    ∃ inserted run',
      Abacus.separateNumbers previous .neither (run ++ word) = inserted ++ (run' ++ word) ∧
      (inserted = [] ∨ inserted = ['*']) ∧ ∀ d ∈ run', d.isDigit = true ∨ d = '.' := by
  cases run with
  | nil => exact ⟨[], [], h.separateNumbers _ _, .inl rfl, by simp⟩
  | cons c run =>
    obtain ⟨hc, hrun⟩ := List.forall_mem_cons.mp hrun
    obtain ⟨run', hrest, hrun'⟩ := h.separateNumbers_run hrun hc
    rw [List.cons_append, Abacus.separateNumbers]
    rcases hc with hc | rfl
    · rw [if_pos hc, if_neg (by decide), hrest]
      have hall : ∀ d ∈ c :: run', d.isDigit = true ∨ d = '.' :=
        List.forall_mem_cons.mpr ⟨.inl hc, hrun'⟩
      split
      · exact ⟨['*'], c :: run', rfl, .inr rfl, hall⟩
      · exact ⟨[], c :: run', rfl, .inl rfl, hall⟩
    · rw [if_neg (by decide), if_pos rfl, hrest]
      have hall : ∀ d ∈ '0' :: '.' :: run', d.isDigit = true ∨ d = '.' :=
        List.forall_mem_cons.mpr ⟨.inl rfl, List.forall_mem_cons.mpr ⟨.inr rfl, hrun'⟩⟩
      split
      · exact ⟨['*'], '0' :: '.' :: run', rfl, .inr rfl, hall⟩
      split
      · exact ⟨[], '.' :: run', rfl, .inl rfl, (List.forall_mem_cons.mp hall).2⟩
      · exact ⟨[], '0' :: '.' :: run', rfl, .inl rfl, hall⟩

/-- A step that starts anew after what is no operand, and that does nothing to an operand but write
a star before it and change its number, keeps the word where it is. -/
theorem EndsRun.of_separate {separate : Option Char → Text → Text}
    (hsplit : ∀ (first : Text) (z : Char), isOperandCharacter z = false → ∃ first', ∀ right,
      separate none (first ++ z :: right) = first' ++ z :: separate (some z) right)
    (hoperand : ∀ (previous : Option Char) (run : Text), (∀ c ∈ run, c.isDigit = true ∨ c = '.') →
      ∃ inserted run', separate previous (run ++ word) = inserted ++ (run' ++ word) ∧
      (inserted = [] ∨ inserted = ['*']) ∧ ∀ d ∈ run', d.isDigit = true ∨ d = '.')
    (h : EndsRun word t) : EndsRun word (separate none t) := by
  obtain ⟨before, run, rfl, hbefore, hrun⟩ := h
  rcases List.eq_nil_or_concat' before with rfl | ⟨first, z, rfl⟩
  · obtain ⟨inserted, run', htext, hinserted, hrun'⟩ := hoperand none run hrun
    refine ⟨inserted, run', by simpa using htext, ?_, hrun'⟩
    rcases hinserted with rfl | rfl <;> simp [isOperandCharacter]
  · have hz := hbefore z (by simp)
    obtain ⟨first', hfirst⟩ := hsplit first z hz
    obtain ⟨inserted, run', htext, hinserted, hrun'⟩ := hoperand (some z) run hrun
    refine ⟨first' ++ z :: inserted, run', ?_, ?_, hrun'⟩
    · rw [List.append_assoc, List.singleton_append, hfirst, htext]
      simp
    · rcases hinserted with rfl | rfl
      · simpa using hz
      · simp [List.getLast?_cons, isOperandCharacter]

protected theorem EndsRun.separateNumbers (hword : IsBareWord word) (h : EndsRun word t) :
    EndsRun word (Abacus.separateNumbers none .neither t) := by
  refine EndsRun.of_separate (fun first z hz => ?_)
    (fun previous run hrun => hword.separateNumbers_operand hrun previous) h
  obtain ⟨first', hfirst⟩ := exists_separateNumbers_concat none .neither first z
  have hwithin : (first ++ [z]).foldl Within.after .neither = .neither := by
    rw [List.foldl_concat, Within.after_of_stop hz]
  exact ⟨first', fun right => by rw [hfirst, hwithin]⟩

theorem endsGroup_of_operand {c : Char} (hc : isOperandCharacter c = true) :
    endsGroup (some c) = false := by
  have hclose : c ≠ ')' := head_ne_of_operand hc (by decide)
  have hfactorial : c ≠ '!' := head_ne_of_operand hc (by decide)
  simp [endsGroup, hclose, hfactorial]

theorem separateGroups_operand {previous : Option Char} (hprevious : endsGroup previous = false)
    (ht : ∀ c ∈ t, isOperandCharacter c = true) : separateGroups previous t = t := by
  induction t generalizing previous with
  | nil => rfl
  | cons c t ih =>
    obtain ⟨hc, ht⟩ := List.forall_mem_cons.mp ht
    rw [separateGroups, if_neg (by simp [hprevious]), ih (endsGroup_of_operand hc) ht]

theorem exists_separateGroups_operand (ht : ∀ c ∈ t, isOperandCharacter c = true)
    (previous : Option Char) :
    ∃ inserted, separateGroups previous t = inserted ++ t ∧ (inserted = [] ∨ inserted = ['*']) := by
  cases t with
  | nil => exact ⟨[], rfl, .inl rfl⟩
  | cons c t =>
    obtain ⟨hc, ht⟩ := List.forall_mem_cons.mp ht
    rw [separateGroups, separateGroups_operand (endsGroup_of_operand hc) ht]
    split
    · exact ⟨['*'], rfl, .inr rfl⟩
    · exact ⟨[], rfl, .inl rfl⟩

protected theorem EndsRun.separateGroups (hword : IsBareWord word) (h : EndsRun word t) :
    EndsRun word (Abacus.separateGroups none t) := by
  refine EndsRun.of_separate (fun first z _ => exists_separateGroups_concat none first z)
    (fun previous run hrun => ?_) h
  obtain ⟨inserted, htext, hinserted⟩ :=
    exists_separateGroups_operand
      (operand_of_run hrun fun c hc => operand_of_wordCharacter (hword.characters c hc)) previous
  exact ⟨inserted, run, htext, hinserted, hrun⟩

theorem exists_of_endsRun_nil {a : Char} {left : Text} (h : EndsRun [] (left ++ [a]))
    (ha : isOperandCharacter a = true) :
    ∃ before run, left ++ [a] = before ++ run ∧
      (∀ c ∈ before.getLast?, isOperandCharacter c = false) ∧
      (∀ c ∈ run, c.isDigit = true ∨ c = '.') ∧ run ≠ [] := by
  obtain ⟨before, run, ht, hbefore, hrun⟩ := h
  rw [List.append_nil] at ht
  refine ⟨before, run, ht, hbefore, hrun, ?_⟩
  rintro rfl
  rw [List.append_nil] at ht
  have hstop := hbefore a (by simp [← ht])
  rw [ha] at hstop
  cases hstop

/-- What the last character belongs to where a number or a word ends. -/
def Within.ofWord (word : Text) : Within := if word = [] then .number else .word

theorem foldl_after_stop (hstop : ∀ c ∈ t.getLast?, isOperandCharacter c = false) :
    t.foldl Within.after .neither = .neither := by
  rcases List.eq_nil_or_concat' t with rfl | ⟨first, z, rfl⟩
  · rfl
  · rw [List.foldl_concat, Within.after_of_stop (hstop z (by simp))]

theorem foldl_after_run (ht : ∀ c ∈ t, c.isDigit = true ∨ c = '.') {within : Within}
    (hwithin : within ≠ .word) :
    t.foldl Within.after within = if t = [] then within else .number := by
  induction t generalizing within with
  | nil => rfl
  | cons c t ih =>
    obtain ⟨hc, ht⟩ := List.forall_mem_cons.mp ht
    have hstep : within.after c = .number := by
      rcases hc with hc | rfl
      · rw [Within.after, if_pos hc, if_neg hwithin]
      · rfl
    rw [List.foldl_cons, hstep, ih ht (by decide), if_neg (List.cons_ne_nil c t)]
    split <;> rfl

theorem Within.after_of_nameStart {c : Char} (hc : isNameStart c = true) (within : Within) :
    within.after c = .word := by
  rw [Within.after, if_neg (isDigit_of_nameStart hc), if_neg (ne_of_nameStart hc (by decide)),
    if_pos hc]

theorem foldl_after_word (ht : ∀ c ∈ t, isWordCharacter c = true) :
    t.foldl Within.after .word = .word := by
  induction t with
  | nil => rfl
  | cons c t ih =>
    obtain ⟨hc, ht⟩ := List.forall_mem_cons.mp ht
    have hstep : Within.word.after c = .word := by
      rcases isWordCharacter_iff.mp hc with hd | hs
      · rw [Within.after, if_pos hd, if_pos rfl]
      · exact Within.after_of_nameStart hs _
    rw [List.foldl_cons, hstep, ih ht]

theorem EndsRun.within {a : Char} {left : Text} (hword : IsBareWord word)
    (h : EndsRun word (left ++ [a])) (hnumber : word = [] → a.isDigit = true) :
    (left ++ [a]).foldl Within.after .neither = .ofWord word := by
  cases word with
  | nil =>
    obtain ⟨before, run, ht, hbefore, hrun, hne⟩ :=
      exists_of_endsRun_nil h (isOperandCharacter_iff.mpr (.inl (hnumber rfl)))
    rw [ht, List.foldl_append, foldl_after_stop hbefore, foldl_after_run hrun (by decide),
      if_neg hne]
    rfl
  | cons c rest =>
    obtain ⟨before, run, ht, hbefore, hrun⟩ := h
    rw [ht, List.foldl_append, List.foldl_append, List.foldl_cons, Within.after_of_nameStart
      (hword.first c rfl), foldl_after_word (List.forall_mem_cons.mp hword.characters).2]
    rfl

end Separating

section Words

variable {v : Vocabulary} {word t : Text} {a b : Char}

theorem separateWords_congr {before y y' : Text} {word : Text} {inNumber : Bool}
    (hbefore : before = [] → word = [] ∧ inNumber = false)
    (hlast : ∀ c ∈ before.getLast?, isOperandCharacter c = false)
    (h : separateWords v [] false y = separateWords v [] false y') :
    separateWords v word inNumber (before ++ y) = separateWords v word inNumber (before ++ y') := by
  induction before generalizing word inNumber with
  | nil =>
    obtain ⟨rfl, rfl⟩ := hbefore rfl
    exact h
  | cons c before ih =>
    have hrest : ∀ d ∈ before.getLast?, isOperandCharacter d = false := fun d hd => hlast d (by
      rw [List.getLast?_cons, Option.mem_def.mp hd]
      rfl)
    have hnext {word : Text} {inNumber : Bool} (hop : isOperandCharacter c = true ∨
        word = [] ∧ inNumber = false) : separateWords v word inNumber (before ++ y) =
          separateWords v word inNumber (before ++ y') := by
      refine ih (fun hnil => hop.resolve_left fun hc => ?_) hrest
      subst hnil
      rw [hlast c rfl] at hc
      cases hc
    have hclear : separateWords v [] false (before ++ y) =
        separateWords v [] false (before ++ y') := hnext (.inr ⟨rfl, rfl⟩)
    simp only [List.cons_append, separateWords, hclear]
    by_cases hop : isOperandCharacter c = true
    · simp only [hnext (.inl hop)]
    · obtain ⟨hdigit, hstart⟩ := not_operand_iff.mp (by simpa using hop)
      simp only [hdigit, hstart, if_false, Bool.false_eq_true]

theorem checkNumbers_congr {y y' : Text}
    (h : ∀ position inWord points, checkNumbers position inWord points y = .ok () ↔
      checkNumbers position inWord points y' = .ok ())
    (before : Text) (position points : Nat) (inWord : Bool) :
    checkNumbers position inWord points (before ++ y) = .ok () ↔
      checkNumbers position inWord points (before ++ y') = .ok () := by
  induction before generalizing position points inWord with
  | nil => exact h ..
  | cons c before ih =>
    rw [List.cons_append, List.cons_append]
    obtain hnone | ⟨_, _, hstep⟩ := checkNumbers_step inWord points c
    · exact iff_of_false (hnone _ _) (hnone _ _)
    · rw [hstep, hstep]
      exact ih ..

theorem checkNumbers_star (hb : isNameStart b = true ∨ b = '(') (position points : Nat)
    (inWord : Bool) (right : Text) :
    checkNumbers position inWord points (b :: right) = .ok () ↔
      checkNumbers position inWord points ('*' :: b :: right) = .ok () := by
  have hstar : checkNumbers position inWord points ('*' :: b :: right) =
      checkNumbers (position + 1) false 0 (b :: right) := by
    simp [checkNumbers, show isNameStart '*' = false by decide]
  have hmove (p q : Nat) (w : Bool) (n : Nat) : checkNumbers p w n right = .ok () ↔
      checkNumbers q w n right = .ok () :=
    ⟨(Starred.refl right).checkNumbers, (Starred.refl right).checkNumbers⟩
  rw [hstar]
  rcases hb with hb | rfl
  · rw [checkNumbers, checkNumbers, if_pos hb, if_pos hb]
    exact hmove ..
  · simp only [checkNumbers, show isNameStart '(' = false by decide]
    simpa using hmove ..

theorem separateWords_nameStart (hb : isNameStart b = true) (inNumber : Bool) (rest : Text) :
    separateWords v [] inNumber (b :: rest) =
      ((if inNumber then ['*', b] else [b]) ++ ·) <$> separateWords v [b] false rest := by
  have hnot : ¬ (b.isDigit = true ∨ b = '.') :=
    not_or.mpr ⟨isDigit_of_nameStart hb, ne_of_nameStart hb (by decide)⟩
  rw [separateWords, if_neg hnot, if_pos hb]
  cases inNumber <;> simp

theorem separateWords_star_number (hb : isNameStart b = true ∨ b = '(') (right : Text) :
    separateWords v [] true (b :: right) = separateWords v [] true ('*' :: b :: right) := by
  have hstar : separateWords v [] true ('*' :: b :: right) =
      ('*' :: ·) <$> separateWords v [] false (b :: right) := by
    simp [separateWords, show isNameStart '*' = false by decide]
  rw [hstar]
  rcases hb with hb | rfl
  · rw [separateWords_nameStart hb, separateWords_nameStart hb]
    cases separateWords v [b] false right <;> rfl
  · simp only [separateWords, show isNameStart '(' = false by decide]
    cases separateWords v [] false right <;> simp

theorem separateWords_star_word (hne : word ≠ []) (hcall : v.isCallable word.reverse = false)
    (right : Text) :
    separateWords v word false ('(' :: right) =
      separateWords v word false ('*' :: '(' :: right) := by
  have hstar : separateWords v word false ('*' :: '(' :: right) =
      ('*' :: ·) <$> separateWords v [] false ('(' :: right) := by
    simp [separateWords, hne, hcall, show isNameStart '*' = false by decide]
  rw [hstar]
  simp only [separateWords, show isNameStart '(' = false by decide, hne, hcall]
  cases separateWords v [] false right <;> simp

theorem EndsRun.separateWords_star (hword : IsBareWord word) (h : EndsRun word t)
    (hnumber : word = [] → (∃ left a, t = left ++ [a] ∧ a.isDigit = true) ∧
      (isNameStart b = true ∨ b = '('))
    (hcall : word ≠ [] → v.isCallable word = false ∧ b = '(') (right : Text) :
    separateWords v [] false (t ++ b :: right) =
      separateWords v [] false (t ++ '*' :: b :: right) := by
  cases word with
  | nil =>
    obtain ⟨⟨left, a, rfl, ha⟩, hb⟩ := hnumber rfl
    obtain ⟨before, run, ht, hbefore, hrun, hne⟩ :=
      exists_of_endsRun_nil h (isOperandCharacter_iff.mpr (.inl ha))
    rw [ht, List.append_assoc, List.append_assoc]
    refine separateWords_congr (fun _ => ⟨rfl, rfl⟩) hbefore ?_
    rw [separateWords_digits hrun (.inl hne), separateWords_digits hrun (.inl hne),
      separateWords_star_number hb]
  | cons c rest =>
    obtain ⟨hnot, rfl⟩ := hcall (List.cons_ne_nil c rest)
    obtain ⟨before, run, rfl, hbefore, hrun⟩ := h
    obtain ⟨hc, hrest⟩ := List.forall_mem_cons.mp hword.characters
    have hs := hword.first c rfl
    have hop : ∀ d ∈ rest, isOperandCharacter d = true := fun d hd =>
      operand_of_wordCharacter (hrest d hd)
    have hstar : separateWords v (rest.reverse ++ [c]) false ('(' :: right) =
        separateWords v (rest.reverse ++ [c]) false ('*' :: '(' :: right) :=
      separateWords_star_word (by simp) (by simpa using hnot) right
    have hword (inNumber : Bool) : separateWords v [] inNumber ((c :: rest) ++ '(' :: right) =
        separateWords v [] inNumber ((c :: rest) ++ '*' :: '(' :: right) := by
      rw [List.cons_append, List.cons_append, separateWords_nameStart hs,
        separateWords_nameStart hs, separateWords_word hop (List.cons_ne_nil c []),
        separateWords_word hop (List.cons_ne_nil c []), hstar]
    simp only [List.append_assoc]
    refine separateWords_congr (fun _ => ⟨rfl, rfl⟩) hbefore ?_
    by_cases hne : run = []
    · rw [hne, List.nil_append, List.nil_append, hword]
    · rw [separateWords_digits hrun (.inl hne), separateWords_digits hrun (.inl hne), hword]

/-- After a number or a word the products are written on with what it is that the text ends with. -/
theorem EndsRun.separated (hword : IsBareWord word) (h : EndsRun word (left ++ [a]))
    (hnumber : word = [] → a.isDigit = true) :
    ∃ left', EndsRun word (left' ++ [a]) ∧ ∀ right,
      separateGroups none (separateNumbers none .neither (left ++ a :: right)) =
        left' ++ a :: separateGroups (some a) (separateNumbers (some a) (.ofWord word) right) := by
  obtain ⟨first, hfirst⟩ := exists_separateNumbers_concat none .neither left a
  obtain ⟨second, hsecond⟩ := exists_separateGroups_concat none first a
  rw [h.within hword hnumber] at hfirst
  have hrun := (h.separateNumbers hword).separateGroups hword
  rw [hfirst, separateNumbers, hsecond, separateGroups] at hrun
  exact ⟨second, hrun, fun right => by rw [hfirst, hsecond]⟩

theorem separateNumbers_star (previous : Option Char) (within : Within) (rest : Text) :
    separateNumbers previous within ('*' :: rest) =
      '*' :: separateNumbers (some '*') .neither rest := by
  simp [separateNumbers, show isNameStart '*' = false by decide]

theorem separateNumbers_open (previous : Option Char) (rest : Text) :
    separateNumbers previous .neither ('(' :: rest) =
      '(' :: separateNumbers (some '(') .neither rest := by
  simp [separateNumbers]

theorem separateNumbers_nameStart (hb : isNameStart b = true) (previous : Option Char)
    (within : Within) (rest : Text) :
    separateNumbers previous within (b :: rest) = b :: separateNumbers (some b) .word rest := by
  rw [separateNumbers, if_neg (isDigit_of_nameStart hb), if_neg (ne_of_nameStart hb (by decide)),
    if_neg (ne_of_nameStart hb (by decide)), if_pos hb]

theorem separateGroups_star (previous : Option Char) (rest : Text) :
    separateGroups previous ('*' :: rest) = '*' :: separateGroups (some '*') rest := by
  simp [separateGroups, show isNameStart '*' = false by decide]

end Words

end Abacus
