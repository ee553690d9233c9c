import Mathlib
import Abacus.Proofs.Canonical.EmptyGroups

/-! The words of a text, and what every way of reading words in a text has in common with it: it
reads a text part by part wherever a character stands that belongs to no operand. -/

namespace Abacus

/-- The pieces between the characters that belong to no piece, each one trimmed, if there is
anything left of it. -/
def trimmedRuns (belongs : Char → Bool) (trim : Text → Text) (t : Text) : List Text :=
  ((t.splitOnP fun c => !belongs c).map trim).filter (· ≠ [])

/-- The longest runs of letters, digits and underscores, without the digits that they begin with. -/
def words (t : Text) : List Text := trimmedRuns isWordCharacter (·.dropWhile Char.isDigit) t

/-- A run without the digits and points that it begins with and the points that it ends with. If it
still holds a point, only that is left of it. -/
def pointedWord (r : Text) : Text :=
  let word := (r.dropWhile fun c => c.isDigit || c == '.').rdropWhile (· == '.')
  if '.' ∈ word then ['.'] else word

/-- The words of a text in which a point parts no words: one that a point stands in shows as the
point. -/
def pointedWords (t : Text) : List Text := trimmedRuns isOperandCharacter pointedWord t

section Runs

variable {belongs : Char → Bool} {trim : Text → Text}

theorem trimmedRuns_nil (htrim : trim [] = []) : trimmedRuns belongs trim [] = [] := by
  simp [trimmedRuns, List.splitOnP_nil, htrim]

theorem trimmedRuns_append_cons {c : Char} (hc : belongs c = false) (left right : Text) :
    trimmedRuns belongs trim (left ++ c :: right) =
      trimmedRuns belongs trim left ++ trimmedRuns belongs trim right := by
  rw [trimmedRuns, List.splitOnP_append_cons _ _ (by simp [hc]), List.map_append,
    List.filter_append]
  rfl

theorem trimmedRuns_cons {c : Char} (hc : belongs c = true) (htrim : ∀ r, trim (c :: r) = trim r)
    (t : Text) : trimmedRuns belongs trim (c :: t) = trimmedRuns belongs trim t := by
  obtain ⟨r, rs, hr⟩ := List.exists_cons_of_ne_nil (List.splitOnP_ne_nil (fun c => !belongs c) t)
  rw [trimmedRuns, trimmedRuns, List.splitOnP_cons_eq_if_modifyHead, if_neg (by simp [hc]), hr,
    List.modifyHead_cons, List.map_cons, List.map_cons, htrim]

theorem splitOnP_concat {c : Char} (hc : belongs c = true) (t : Text) : ∃ runs r,
    (t.splitOnP fun c => !belongs c) = runs ++ [r] ∧
    ((t ++ [c]).splitOnP fun c => !belongs c) = runs ++ [r ++ [c]] := by
  induction t with
  | nil => exact ⟨[], [], by simp, List.splitOnP_eq_singleton (by simp [hc])⟩
  | cons d t ih =>
    obtain ⟨runs, r, ht, htc⟩ := ih
    rw [List.cons_append, List.splitOnP_cons_eq_if_modifyHead, List.splitOnP_cons_eq_if_modifyHead,
      ht, htc]
    split
    · exact ⟨[] :: runs, r, rfl, rfl⟩
    · cases runs with
      | nil => exact ⟨[], d :: r, rfl, rfl⟩
      | cons first runs => exact ⟨(d :: first) :: runs, r, rfl, rfl⟩

theorem trimmedRuns_concat {c : Char} (hc : belongs c = true)
    (htrim : ∀ r, trim (r ++ [c]) = trim r) (t : Text) :
    trimmedRuns belongs trim (t ++ [c]) = trimmedRuns belongs trim t := by
  obtain ⟨runs, r, ht, htc⟩ := splitOnP_concat hc t
  rw [trimmedRuns, trimmedRuns, ht, htc, List.map_append, List.map_append, List.map_singleton,
    List.map_singleton, htrim]

theorem trimmedRuns_run {t : Text} (ht : ∀ c ∈ t, belongs c = true) :
    trimmedRuns belongs trim t = [trim t].filter (· ≠ []) := by
  rw [trimmedRuns, List.splitOnP_eq_singleton fun c hc => by simp [ht c hc], List.map_singleton]

theorem trimmedRuns_eq_singleton {t : Text} (ht : ∀ c ∈ t, belongs c = true) (htrim : trim t = t)
    (hne : t ≠ []) : trimmedRuns belongs trim t = [t] := by
  rw [trimmedRuns_run ht]
  simp [htrim, hne]

end Runs

/-- A way of reading a text part by part at a character that belongs to no operand, whatever digits
stand at the beginning and whether or not there is a point at the end. -/
structure ReadsParts (f : Text → List Text) : Prop where
  nil : f [] = []
  split {c : Char} (hc : isOperandCharacter c = false) (left right : Text) :
    f (left ++ c :: right) = f left ++ f right
  digit {c : Char} (hc : c.isDigit = true) (t : Text) : f (c :: t) = f t
  last (t : Text) : f (t ++ ['.']) = f t

/-- A way of reading words in a text, where a number at the beginning is none. -/
structure ReadsWords (f : Text → List Text) : Prop extends ReadsParts f where
  first {c : Char} (hc : c.isDigit = true ∨ c = '.') (t : Text) : f (c :: t) = f t
  digit hc t := first (.inl hc) t
  identifier {t : Text} (ht : isIdentifier t = true) : f t = [t]

namespace ReadsParts

variable {f : Text → List Text} (hf : ReadsParts f)
include hf

theorem cons {c : Char} (hc : isOperandCharacter c = false) (t : Text) : f (c :: t) = f t := by
  simpa [hf.nil] using hf.split hc [] t

theorem concat {c : Char} (hc : isOperandCharacter c = false) (t : Text) : f (t ++ [c]) = f t := by
  simpa [hf.nil] using hf.split hc t []

theorem append_of_last {left : Text} (h : ∀ c ∈ left.getLast?, isOperandCharacter c = false)
    (right : Text) : f (left ++ right) = f left ++ f right := by
  rcases List.eq_nil_or_concat' left with rfl | ⟨l, c, rfl⟩
  · simp [hf.nil]
  · have hc := h c (by simp)
    rw [List.append_assoc, List.singleton_append, hf.split hc, hf.concat hc]

theorem append_of_first {right : Text} (left : Text)
    (h : ∀ c ∈ right.head?, isOperandCharacter c = false) :
    f (left ++ right) = f left ++ f right := by
  cases right with
  | nil => simp [hf.nil]
  | cons c r =>
    have hc := h c rfl
    rw [hf.split hc, hf.cons hc]

end ReadsParts

namespace ReadsWords

variable {f : Text → List Text} (hf : ReadsWords f)
include hf

theorem number {t : Text} (ht : ∀ c ∈ t, c.isDigit = true ∨ c = '.') (rest : Text) :
    f (t ++ rest) = f rest := by
  induction t with
  | nil => rfl
  | cons c t ih =>
    rw [List.cons_append, hf.first (ht c List.mem_cons_self),
      ih fun d hd => ht d (List.mem_cons_of_mem _ hd)]

theorem points {s : Text} (hs : ∀ c ∈ s, c = '.') (t : Text) : f (t ++ s) = f t := by
  induction s generalizing t with
  | nil => rw [List.append_nil]
  | cons c s ih =>
    obtain ⟨rfl, hrest⟩ := List.forall_mem_cons.mp hs
    rw [← List.singleton_append, ← List.append_assoc, ih hrest, hf.last]

theorem eq_nil {t : Text} (ht : ∀ c ∈ t, isNameStart c = false) : f t = [] := by
  induction t with
  | nil => exact hf.nil
  | cons c t ih =>
    have hrest := ih fun d hd => ht d (List.mem_cons_of_mem _ hd)
    cases hop : isOperandCharacter c with
    | false => rw [hf.cons hop, hrest]
    | true =>
      rcases isOperandCharacter_iff.mp hop with hd | hp | hs
      · rw [hf.first (.inl hd), hrest]
      · rw [hf.first (.inr hp), hrest]
      · rw [ht c List.mem_cons_self] at hs
        cases hs

theorem withoutOuterGroups (t : Text) : f (withoutOuterGroups t) = f t := by
  fun_induction Abacus.withoutOuterGroups t with
  | case1 => rfl
  | case2 rest d inside hgroup ih =>
    rw [ih, hf.cons (c := '(') (by decide), splitGroup_eq_some hgroup,
      hf.concat (c := ')') (by decide)]
  | case3 => rfl
  | case4 => rfl

end ReadsWords

theorem isIdentifier_cases {t : Text} (h : isIdentifier t = true) :
    ∃ c rest, t = c :: rest ∧ c.isDigit = false ∧ c ≠ '.' ∧ ∀ d ∈ t, isWordCharacter d = true := by
  have hall := wordCharacters_of_isIdentifier h
  cases t with
  | nil => simp [isIdentifier] at h
  | cons c rest =>
    have hstart : isNameStart c = true := by
      simp only [isIdentifier, Bool.and_eq_true, Bool.or_eq_true] at h
      simp only [isNameStart, Char.isAlpha, Bool.or_eq_true]
      tauto
    refine ⟨c, rest, rfl, ?_, ne_of_nameStart hstart (by decide), hall⟩
    rw [← Bool.not_eq_true]
    intro hd
    rw [isNameStart_digit hd] at hstart
    cases hstart

theorem readsWords_words : ReadsWords words where
  nil := trimmedRuns_nil rfl
  split hc left right := trimmedRuns_append_cons (not_wordCharacter hc) left right
  first hc t := by
    rcases hc with hc | rfl
    · exact trimmedRuns_cons (isWordCharacter_iff.mpr (.inl hc)) (fun r => by simp [hc]) t
    · have hsplit : words ([] ++ '.' :: t) = words [] ++ words t :=
        trimmedRuns_append_cons (by decide) [] t
      rwa [show words [] = [] from trimmedRuns_nil rfl] at hsplit
  last t := by
    have hsplit : words (t ++ ['.']) = words t ++ words [] :=
      trimmedRuns_append_cons (by decide) t []
    rwa [show words [] = [] from trimmedRuns_nil rfl, List.append_nil] at hsplit
  identifier ht := by
    obtain ⟨c, rest, rfl, hdigit, -, hall⟩ := isIdentifier_cases ht
    exact trimmedRuns_eq_singleton hall (by simp [hdigit]) (by simp)

theorem readsWords_pointedWords : ReadsWords pointedWords where
  nil := trimmedRuns_nil rfl
  split hc left right := trimmedRuns_append_cons hc left right
  first hc t := trimmedRuns_cons (isOperandCharacter_iff.mpr (hc.imp_right .inl)) (fun r => by
    rw [pointedWord, pointedWord, List.dropWhile_cons_of_pos (by simpa using hc)]) t
  last t := trimmedRuns_concat (by decide) (fun r => by
    rw [pointedWord, pointedWord, List.dropWhile_append]
    split
    · next hr => simp [List.isEmpty_iff.mp hr]
    · rw [List.rdropWhile_concat_pos _ _ _ (by simp)]) t
  identifier ht := by
    obtain ⟨c, rest, rfl, hdigit, hpoint, hall⟩ := isIdentifier_cases ht
    have hnot : '.' ∉ c :: rest := fun hmem => absurd (hall '.' hmem) (by decide)
    refine trimmedRuns_eq_singleton (fun d hd => ?_) ?_ (by simp)
    · exact operand_of_wordCharacter (hall d hd)
    · have htrim : (c :: rest).rdropWhile (· == '.') = c :: rest :=
        List.rdropWhile_eq_self_iff.mpr fun hne hlast =>
          hnot (beq_iff_eq.mp hlast ▸ List.getLast_mem hne)
      rw [pointedWord, List.dropWhile_cons_of_neg (by simp [hdigit, hpoint]), htrim, if_neg hnot]

section Points

variable {t left right : Text} {x b : Char}

theorem exists_last_run (belongs : Char → Bool) (t : Text) : ∃ before run, t = before ++ run ∧
    (∀ c ∈ before.getLast?, belongs c = false) ∧ ∀ c ∈ run, belongs c = true := by
  induction t using List.reverseRecOn with
  | nil => exact ⟨[], [], rfl, by simp, by simp⟩
  | append_singleton t c ih =>
    obtain ⟨before, run, rfl, hbefore, hrun⟩ := ih
    cases hc : belongs c with
    | false => exact ⟨before ++ run ++ [c], [], by simp, by simpa using hc, by simp⟩
    | true =>
      refine ⟨before, run ++ [c], by simp, hbefore, fun d hd => ?_⟩
      rcases List.mem_append.mp hd with hd | hd
      · exact hrun d hd
      · rwa [List.mem_singleton.mp hd]

theorem exists_first_run (belongs : Char → Bool) (t : Text) : ∃ run after, t = run ++ after ∧
    (∀ c ∈ after.head?, belongs c = false) ∧ ∀ c ∈ run, belongs c = true := by
  obtain ⟨before, run, ht, hbefore, hrun⟩ := exists_last_run belongs t.reverse
  refine ⟨run.reverse, before.reverse, ?_, ?_, fun c hc => hrun c (List.mem_reverse.mp hc)⟩
  · rw [← List.reverse_append, ← ht, List.reverse_reverse]
  · rwa [List.head?_reverse]

theorem trimmedRuns_within {belongs : Char → Bool} {trim : Text → Text} {m k : Text}
    (htrim : trim [] = []) (hm : ∀ c ∈ m, belongs c = true) (hk : ∀ c ∈ k, belongs c = true)
    (h : ∀ first last, trim (first ++ (m ++ last)) = trim (first ++ (k ++ last)))
    (left right : Text) :
    trimmedRuns belongs trim (left ++ (m ++ right)) =
      trimmedRuns belongs trim (left ++ (k ++ right)) := by
  obtain ⟨before, run, rfl, hbefore, hrun⟩ := exists_last_run belongs left
  obtain ⟨run', after, rfl, hafter, hrun'⟩ := exists_first_run belongs right
  have hone {m : Text} (hm : ∀ c ∈ m, belongs c = true) :
      trimmedRuns belongs trim (run ++ (m ++ run')) = [trim (run ++ (m ++ run'))].filter (· ≠ []) :=
    trimmedRuns_run (List.forall_mem_append.mpr ⟨hrun, List.forall_mem_append.mpr ⟨hm, hrun'⟩⟩)
  have hlast {m : Text} (hm : ∀ c ∈ m, belongs c = true) : trimmedRuns belongs trim
      (run ++ (m ++ (run' ++ after))) =
        [trim (run ++ (m ++ run'))].filter (· ≠ []) ++ trimmedRuns belongs trim after.tail := by
    cases after with
    | nil => simp [hone hm, trimmedRuns_nil htrim]
    | cons c after =>
      rw [← hone hm, ← List.append_assoc m, ← List.append_assoc,
        trimmedRuns_append_cons (hafter c rfl), List.tail_cons]
  have hall {m : Text} (hm : ∀ c ∈ m, belongs c = true) : trimmedRuns belongs trim
      (before ++ run ++ (m ++ (run' ++ after))) = trimmedRuns belongs trim before.dropLast ++
        ([trim (run ++ (m ++ run'))].filter (· ≠ []) ++ trimmedRuns belongs trim after.tail) := by
    rw [← hlast hm, List.append_assoc]
    rcases List.eq_nil_or_concat' before with rfl | ⟨before, c, rfl⟩
    · simp [trimmedRuns_nil htrim]
    · rw [List.append_assoc, List.singleton_append, trimmedRuns_append_cons (hbefore c (by simp)),
        List.dropLast_concat]
  rw [hall hm, hall hk, h]

/-- What holds of the runs of some characters and of a text with its runs apart. -/
theorem run_induction {P : Text → Prop} (belongs : Char → Bool)
    (hrun : ∀ run, (∀ c ∈ run, belongs c = true) → P run)
    (hsplit : ∀ run c after, belongs c = false → P run → P after → P (run ++ c :: after))
    (t : Text) : P t := by
  induction hn : t.length using Nat.strong_induction_on generalizing t with
  | _ n ih =>
    obtain ⟨run, after, rfl, hafter, hall⟩ := exists_first_run belongs t
    cases after with
    | nil =>
      rw [List.append_nil]
      exact hrun run hall
    | cons c after =>
      refine hsplit run c after (hafter c rfl) (hrun run hall) (ih after.length ?_ after rfl)
      rw [← hn]
      simp
      omega

theorem pointedWords_run (ht : ∀ c ∈ t, isOperandCharacter c = true) :
    pointedWords t = [pointedWord t].filter (· ≠ []) :=
  trimmedRuns_run ht

theorem pointedWord_inside {m : Text} (hx : isNameStart x = true) (hb : b ≠ '.') :
    pointedWord (left ++ x :: (m ++ '.' :: b :: right)) = ['.'] := by
  have hstart : ¬ (x.isDigit || x == '.') = true := by
    simpa using ⟨by simpa using isDigit_of_nameStart hx, ne_of_nameStart hx (by decide)⟩
  obtain ⟨first, hfirst⟩ : ∃ first,
      (left ++ x :: (m ++ '.' :: b :: right)).dropWhile (fun c => c.isDigit || c == '.') =
      first ++ '.' :: b :: right := by
    rw [List.dropWhile_append,
      List.dropWhile_cons_of_neg (p := fun c => c.isDigit || c == '.') hstart]
    split
    · exact ⟨x :: m, rfl⟩
    · exact ⟨_ ++ x :: m, by rw [List.append_assoc]; rfl⟩
  obtain ⟨last, hlast⟩ : ∃ last, (first ++ '.' :: b :: right).rdropWhile (· == '.') =
      first ++ '.' :: b :: last := by
    rw [List.rdropWhile]
    have hreverse : (first ++ '.' :: b :: right).reverse =
        right.reverse ++ b :: '.' :: first.reverse := by simp
    rw [hreverse, List.dropWhile_append, List.dropWhile_cons_of_neg (by simpa using hb)]
    split
    · exact ⟨[], by simp⟩
    · exact ⟨(right.reverse.dropWhile (· == '.')).reverse, by simp⟩
  rw [pointedWord, hfirst, hlast, if_pos (by simp)]

theorem pointedWords_zero (hx : isNameStart x = true) (hb : b.isAlphanum = true)
    (left right : Text) :
    pointedWords (left ++ x :: '0' :: '.' :: b :: right) =
      pointedWords (left ++ x :: '.' :: b :: right) := by
  have hb' : b ≠ '.' := by
    rintro rfl
    exact absurd hb (by decide)
  have hx' : isOperandCharacter x = true := isOperandCharacter_iff.mpr (.inr (.inr hx))
  have hop : isOperandCharacter b = true := by simp [isOperandCharacter, hb]
  refine trimmedRuns_within (m := [x, '0', '.', b]) (k := [x, '.', b]) rfl
    (by simp [hx', hop]; decide) (by simp [hx', hop]; decide) (fun first last => ?_) left right
  exact (pointedWord_inside (m := ['0']) hx hb').trans (pointedWord_inside (m := []) hx hb').symm

/-- A run begins with digits and points and ends with points, and what is between them is left of
it. -/
theorem exists_pointedWord_split (h : pointedWord t ≠ ['.']) :
    ∃ first last, t = first ++ (pointedWord t ++ last) ∧
    (∀ c ∈ first, c.isDigit = true ∨ c = '.') ∧ (∀ c ∈ last, c = '.') ∧ '.' ∉ pointedWord t ∧
      ∀ c ∈ (pointedWord t).head?, c.isDigit = false := by
  have hword :
      pointedWord t = (t.dropWhile fun c => c.isDigit || c == '.').rdropWhile (· == '.') := by
    rw [pointedWord]
    exact if_neg fun hmem => h (if_pos hmem)
  have hnot : '.' ∉ pointedWord t := by
    intro hmem
    rw [hword] at hmem
    exact h (if_pos hmem)
  have hfirst := List.takeWhile_append_dropWhile (p := fun c => c.isDigit || c == '.') (l := t)
  have hstart := List.head?_dropWhile_not (fun c => c.isDigit || c == '.') t
  generalize hd : t.dropWhile (fun c => c.isDigit || c == '.') = d at hword hfirst hstart
  have hlast : d.rdropWhile (· == '.') ++ d.rtakeWhile (· == '.') = d :=
    List.rdropWhile_append_rtakeWhile
  rw [← hword] at hlast
  refine ⟨t.takeWhile fun c => c.isDigit || c == '.', d.rtakeWhile (· == '.'), ?_, fun c hc => ?_,
    fun c hc => ?_, hnot, ?_⟩
  · rw [hlast, hfirst]
  · simpa using List.mem_takeWhile_imp hc
  · simpa using List.mem_rtakeWhile_imp hc
  · intro c hc
    obtain ⟨rest, hrest⟩ := List.head?_eq_some_iff.mp hc
    rw [← hlast, hrest, List.cons_append, List.head?_cons] at hstart
    exact (Bool.or_eq_false_iff.mp hstart).1

theorem words_run (ht : ∀ c ∈ t, isOperandCharacter c = true) (hpoint : pointedWord t ≠ ['.']) :
    words t = pointedWords t := by
  obtain ⟨first, last, hsplit, hfirst, hlast, hnot, hhead⟩ := exists_pointedWord_split hpoint
  rw [pointedWords_run ht]
  generalize pointedWord t = word at hsplit hnot hhead
  subst hsplit
  have hall : ∀ c ∈ word, isWordCharacter c = true := fun c hc => by
    have hop := ht c (by simp [hc])
    have hne : c ≠ '.' := fun he => hnot (he ▸ hc)
    rw [isOperandCharacter_iff] at hop
    rw [isWordCharacter_iff]
    tauto
  have htrim : word.dropWhile Char.isDigit = word := by
    cases word with
    | nil => rfl
    | cons c word => exact List.dropWhile_cons_of_neg (by simp [hhead c rfl])
  rw [readsWords_words.number hfirst, readsWords_words.points hlast, words,
    trimmedRuns_run hall, htrim]

/-- Where no point stands in a word, a point may as well part words. -/
theorem words_eq_pointedWords (h : ['.'] ∉ pointedWords t) : words t = pointedWords t := by
  induction t using run_induction isOperandCharacter with
  | hrun run hrun =>
    exact words_run hrun fun he => h (by simp [pointedWords_run hrun, he])
  | hsplit run c after hc hrun hafter =>
    rw [readsWords_pointedWords.split hc] at h ⊢
    obtain ⟨hfirst, hlast⟩ := not_or.mp (mt List.mem_append.mpr h)
    rw [readsWords_words.split hc, hrun hfirst, hafter hlast]

theorem isWordCharacter_of_mem_words {word : Text} {c : Char} (hword : word ∈ words t)
    (hc : c ∈ word) : isWordCharacter c = true := by
  induction t using run_induction isWordCharacter with
  | hrun run hrun =>
    rw [words, trimmedRuns_run hrun] at hword
    obtain rfl := List.mem_singleton.mp (List.mem_filter.mp hword).1
    exact hrun c (List.dropWhile_subset _ hc)
  | hsplit run d after hd hrun hafter =>
    rw [words, trimmedRuns_append_cons hd] at hword
    exact (List.mem_append.mp hword).elim hrun hafter

end Points

end Abacus
