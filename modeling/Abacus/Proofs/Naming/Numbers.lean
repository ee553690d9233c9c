import Abacus.Proofs.Naming.Read

/-! The numbers of a text that can be read have one point at most. Numbers are checked when the
groups without operands are gone, and with them the points that stand before other signs or at the
end. -/

namespace Abacus

/-- A character of a number. -/
def isNumeric (c : Char) : Bool := c.isDigit || c == '.'

/-- What tidying leaves of a run of digits and points with this character after it: the points at
its end go unless a letter follows. -/
def settledNumber (run : Text) (next : Option Char) : Text :=
  if next.any Char.isAlpha then run else run.rdropWhile (· == '.')

/-- A run of characters of operands shows as a point if the number that it begins with has two
points. -/
def overPointed (r : Text) : Text :=
  if 1 < (settledNumber (r.takeWhile isNumeric) (r.dropWhile isNumeric).head?).count '.' then
    ['.'] else []

/-- The numbers of a text with two points. -/
def overPointedNumbers (t : Text) : List Text := trimmedRuns isOperandCharacter overPointed t

/-- A longest run of digits and points in a text, where no letter, digit or underscore goes
before. -/
structure NumberIn (t left run right : Text) : Prop where
  parts : t = left ++ (run ++ right)
  before : ∀ c ∈ left.getLast?, isOperandCharacter c = false
  numeric : ∀ c ∈ run, isNumeric c = true
  after : ∀ c ∈ right.head?, isNumeric c = false

section Runs

variable {run rest left right t : Text} {next : Option Char} {c x : Char}

theorem isNumeric_iff : isNumeric c = true ↔ c.isDigit = true ∨ c = '.' := by simp [isNumeric]

theorem not_numeric_of_nameStart (hx : isNameStart x = true) : isNumeric x = false := by
  have hpoint : x ≠ '.' := ne_of_nameStart hx (by decide)
  simpa [isNumeric, hpoint] using isDigit_of_nameStart hx

theorem count_settledNumber_le (run : Text) (next : Option Char) :
    (settledNumber run next).count '.' ≤ run.count '.' := by
  rw [settledNumber]
  split
  · exact le_rfl
  · exact (List.rdropWhile_prefix _ run).sublist.count_le _

theorem count_settledNumber_cons (hc : c ≠ '.') (run : Text) (next : Option Char) :
    (settledNumber (c :: run) next).count '.' = (settledNumber run next).count '.' := by
  simp only [settledNumber, List.rdropWhile, List.reverse_cons, List.dropWhile_append]
  split
  · rw [List.count_cons_of_ne hc]
  · split
    · next hpoints => simp [List.isEmpty_iff.mp hpoints, hc]
    · simp [hc]

theorem settledNumber_concat (hnext : next.any Char.isAlpha = false) (run : Text) :
    settledNumber (run ++ ['.']) next = settledNumber run next := by
  rw [settledNumber, settledNumber, if_neg (by simp [hnext]), if_neg (by simp [hnext]),
    List.rdropWhile_concat_pos _ _ _ (by simp)]

theorem overPointed_append (hrun : ∀ c ∈ run, isNumeric c = true)
    (hrest : ∀ c ∈ rest.head?, isNumeric c = false) :
    overPointed (run ++ rest) = if 1 < (settledNumber run rest.head?).count '.' then ['.']
      else [] := by
  have hstop : rest.takeWhile isNumeric = [] ∧ rest.dropWhile isNumeric = rest := by
    cases rest with
    | nil => exact ⟨rfl, rfl⟩
    | cons c rest => simp [hrest c rfl]
  rw [overPointed, List.takeWhile_append_of_pos hrun, List.dropWhile_append_of_pos hrun, hstop.1,
    hstop.2, List.append_nil]

theorem overPointed_digit (hc : c.isDigit = true) (r : Text) :
    overPointed (c :: r) = overPointed r := by
  obtain ⟨run, rest, rfl, hrest, hrun⟩ := exists_first_run isNumeric r
  have hrun' : ∀ d ∈ c :: run, isNumeric d = true :=
    List.forall_mem_cons.mpr ⟨isNumeric_iff.mpr (.inl hc), hrun⟩
  rw [← List.cons_append, overPointed_append hrun' hrest, overPointed_append hrun hrest,
    count_settledNumber_cons (ne_of_digit hc (by decide))]

theorem overPointed_point (left : Text) {right : Text}
    (hright : right.head?.any isNumeric = false ∧ right.head?.any Char.isAlpha = false) :
    overPointed (left ++ '.' :: right) = overPointed (left ++ right) := by
  obtain ⟨run, rest, rfl, hrest, hrun⟩ := exists_first_run isNumeric left
  cases rest with
  | nil =>
    have hrun' : ∀ d ∈ run ++ ['.'], isNumeric d = true :=
      List.forall_mem_append.mpr ⟨hrun, by simp [isNumeric]⟩
    have hstop : ∀ d ∈ right.head?, isNumeric d = false := fun d hd => by
      simpa [Option.mem_def.mp hd] using hright.1
    rw [List.append_nil, ← List.singleton_append, ← List.append_assoc,
      overPointed_append hrun' hstop, overPointed_append hrun hstop, settledNumber_concat hright.2]
  | cons d rest =>
    rw [List.append_assoc, List.append_assoc, overPointed_append hrun (by simpa using hrest),
      overPointed_append hrun (by simpa using hrest)]
    rfl

theorem overPointed_nameStart (hx : isNameStart x = true) (left right : Text) :
    overPointed (left ++ x :: right) = overPointed (left ++ [x]) := by
  obtain ⟨run, rest, rfl, hrest, hrun⟩ := exists_first_run isNumeric left
  cases rest with
  | nil =>
    have hstop : isNumeric x = false := not_numeric_of_nameStart hx
    rw [List.append_nil, overPointed_append hrun (by simpa using hstop),
      overPointed_append hrun (by simpa using hstop)]
    rfl
  | cons d rest =>
    rw [List.append_assoc, List.append_assoc, overPointed_append hrun (by simpa using hrest),
      overPointed_append hrun (by simpa using hrest)]
    rfl

end Runs

theorem readsParts_overPointedNumbers : ReadsParts overPointedNumbers where
  nil := trimmedRuns_nil rfl
  split hc left right := trimmedRuns_append_cons hc left right
  digit hc t := trimmedRuns_cons (isOperandCharacter_iff.mpr (.inl hc)) (overPointed_digit hc) t
  last t := trimmedRuns_concat (by decide)
    (fun r => by rw [overPointed_point r ⟨rfl, rfl⟩, List.append_nil]) t

section Tidying

variable {v : Vocabulary} {run left right t u n : Text} {position points : Nat} {inWord : Bool}
  {x : Char}

theorem overPointedNumbers_zero (hx : isNameStart x = true) (left right : Text) :
    overPointedNumbers (left ++ x :: '0' :: '.' :: right) =
      overPointedNumbers (left ++ x :: '.' :: right) := by
  have hx' : isOperandCharacter x = true := isOperandCharacter_iff.mpr (.inr (.inr hx))
  refine trimmedRuns_within (m := [x, '0', '.']) (k := [x, '.']) rfl (by simp [hx']; decide)
    (by simp [hx']; decide) (fun first last => ?_) left right
  exact (overPointed_nameStart hx first _).trans (overPointed_nameStart hx first _).symm

theorem overPointedNumbers_point {b : Char} (hb : isSpecial b = true) (hpoint : b ≠ '.')
    (left right : Text) :
    overPointedNumbers (left ++ '.' :: b :: right) = overPointedNumbers (left ++ b :: right) := by
  cases hop : isOperandCharacter b with
  | false =>
    have hsplit := readsParts_overPointedNumbers.split hop (left ++ ['.']) right
    rw [readsParts_overPointedNumbers.last] at hsplit
    rw [readsParts_overPointedNumbers.split hop, ← hsplit, List.append_assoc, List.singleton_append]
  | true =>
    obtain rfl : b = '_' := by
      have hdigit : b.isAlphanum = false := by
        by_contra hb'
        simp [not_special_of_alphanum (b := b) (by simpa using hb')] at hb
      simpa [isOperandCharacter, hdigit, hpoint] using hop
    refine trimmedRuns_within (m := ['.', '_']) (k := ['_']) rfl (by simp; decide) (by simp; decide)
      (fun first last => ?_) left right
    have hname : ('_' :: last).head?.any isNumeric = false ∧
        ('_' :: last).head?.any Char.isAlpha = false := ⟨rfl, rfl⟩
    exact overPointed_point first hname

theorem overPointedNumbers_dropPoints (hpoints : List.IsChain (fun a b => b = '.' → a ≠ '.') t) :
    overPointedNumbers (dropPoints t) = overPointedNumbers t := by
  refine (dropPoints_induction (P := fun u => overPointedNumbers u = overPointedNumbers t ∧
    List.IsChain (fun a b => b = '.' → a ≠ '.') u) (fun left b right hb ⟨hsame, hchain⟩ => ?_)
      ⟨rfl, hpoints⟩).1
  obtain ⟨hleft, hpoint, hright⟩ := List.isChain_append_cons_cons.mp hchain
  have hne : b ≠ '.' := fun he => hpoint he rfl
  refine ⟨by rw [← hsame, overPointedNumbers_point hb hne],
    List.isChain_append.mpr ⟨hleft.left_of_append, hright, ?_⟩⟩
  rintro a - c hc rfl
  exact absurd (by simpa using hc) hne

/-- What passes the check of the numbers has no number with two points. -/
theorem overPointedNumbers_of_checkNumbers (rest : Text)
    (h : checkNumbers position false 0 (t ++ rest) = .ok ()) : overPointedNumbers t = [] := by
  induction t using run_induction isOperandCharacter generalizing position rest with
  | hrun run hrun =>
    obtain ⟨number, word, rfl, hword, hnumber⟩ := exists_first_run isNumeric run
    rw [List.append_assoc] at h
    have hcount := count_point_le (fun c hc => isNumeric_iff.mp (hnumber c hc)) (Nat.zero_le 1) h
    have hone : ¬ 1 < (settledNumber number word.head?).count '.' := by
      have hle := count_settledNumber_le number word.head?
      omega
    rw [overPointedNumbers, trimmedRuns_run hrun, overPointed_append hnumber hword, if_neg hone]
    rfl
  | hsplit run c after hc hrun hafter =>
    rw [List.append_assoc] at h
    obtain ⟨-, position', inWord', points', hlast⟩ := checkNumbers_append h
    rw [List.cons_append, checkNumbers_of_stop hc] at hlast
    rw [readsParts_overPointedNumbers.split hc, hrun _ h, hafter rest hlast, List.append_nil]

/-- Every number of a text is checked, or what is left of it once the empty groups are gone. -/
theorem overPointedNumbers_of_tidyFrom (h : tidyFrom v t = .ok n) :
    overPointedNumbers (withoutEmptyGroups v.isCallable t) = [] := by
  have hunsigned {s u : Text} (hs : Settles s u) : List.IsChain Finished u :=
    hs.parted.imp fun a b hab => hab.1
  obtain ⟨t', u, hkept, hsettles, hnone, hwrite⟩ := tidyFrom_cases
    (P := fun s => overPointedNumbers (withoutEmptyGroups v.isCallable s) =
      overPointedNumbers (withoutEmptyGroups v.isCallable t))
    (fun s u w hs hsettles hw => by
      rw [withoutEmptyGroups_dropEmptyGroup? (hunsigned hsettles) hw,
        readsParts_overPointedNumbers.settles hsettles, hs]) rfl h
  have hcalled := dropEmptyGroup?_eq_none_iff.mp hnone
  have hpoints : List.IsChain (fun a b => b = '.' → a ≠ '.') u :=
    hsettles.parted.imp fun a b hab hb => (hab.2 hb).1
  have hzero (first rest : Text) (hu : dropPoints u = first ++ '.' :: rest)
      (hdigit : ¬ first.getLast?.any Char.isDigit = true) :
      overPointedNumbers (first ++ '0' :: '.' :: separateNumbers (some '.') .number rest) =
        overPointedNumbers (first ++ '.' :: separateNumbers (some '.') .number rest) := by
    rcases List.eq_nil_or_concat' first with rfl | ⟨left, x, rfl⟩
    · exact readsParts_overPointedNumbers.zero_of_last (by simp) _
    cases hx : isOperandCharacter x with
    | false => exact readsParts_overPointedNumbers.zero_of_last (by simpa using hx) _
    | true =>
      have hchain := isChain_dropPoints u
      rw [hu, List.append_assoc, List.singleton_append, List.isChain_append_cons_cons] at hchain
      have hne : x ≠ '.' := fun he => hchain.2.1 ⟨he, by decide⟩
      have hname : isNameStart x = true := by
        rw [isOperandCharacter_iff] at hx
        simp only [List.getLast?_concat, Option.any_some] at hdigit
        tauto
      simpa using overPointedNumbers_zero hname left _
  calc overPointedNumbers (withoutEmptyGroups v.isCallable t)
      = overPointedNumbers (withoutEmptyGroups v.isCallable t') := hkept.symm
    _ = overPointedNumbers (withoutEmptyGroups v.isCallable u) :=
      (readsParts_overPointedNumbers.settles hsettles).symm
    _ = overPointedNumbers u := by rw [withoutEmptyGroups_eq_self (hunsigned hsettles) hcalled]
    _ = overPointedNumbers (dropPoints u) := (overPointedNumbers_dropPoints hpoints).symm
    _ = overPointedNumbers (separateNumbers none .neither (dropPoints u)) :=
      (readsParts_overPointedNumbers.separateNumbers hzero).symm
    _ = overPointedNumbers (separateGroups none (separateNumbers none .neither (dropPoints u))) :=
      (readsParts_overPointedNumbers.separateGroups [] _).symm
    _ = [] :=
      overPointedNumbers_of_checkNumbers [] (by simpa using (writeProducts_eq_ok hwrite).numbers)

theorem NumberIn.count_le (h : NumberIn t left run right) (hnone : overPointedNumbers t = []) :
    (settledNumber run right.head?).count '.' ≤ 1 := by
  obtain ⟨rfl, hleft, hrun, hright⟩ := h
  obtain ⟨rest, after, rfl, hafter, hrest⟩ := exists_first_run isOperandCharacter right
  have hword : ∀ c ∈ run ++ rest, isOperandCharacter c = true := List.forall_mem_append.mpr
    ⟨fun c hc => isOperandCharacter_iff.mpr ((isNumeric_iff.mp (hrun c hc)).imp_right .inl), hrest⟩
  have hstop : ∀ c ∈ rest.head?, isNumeric c = false := fun c hc => hright c (by
    obtain ⟨others, rfl⟩ := List.head?_eq_some_iff.mp hc
    rfl)
  have hnext : settledNumber run rest.head? = settledNumber run (rest ++ after).head? := by
    cases rest with
    | cons c rest => rfl
    | nil =>
      cases after with
      | nil => rfl
      | cons c after =>
        have hletter : c.isAlpha = false := by
          have hc := hafter c rfl
          simp only [isOperandCharacter, Char.isAlphanum, Bool.or_eq_false_iff] at hc
          exact hc.1.1.1
        simp [settledNumber, hletter]
  have hparts := readsParts_overPointedNumbers.append_of_first (run ++ rest) hafter
  rw [readsParts_overPointedNumbers.append_of_last hleft, ← List.append_assoc, hparts] at hnone
  have hone : overPointedNumbers (run ++ rest) = [] :=
    (List.append_eq_nil_iff.mp (List.append_eq_nil_iff.mp hnone).2).1
  rw [overPointedNumbers, trimmedRuns_run hword, overPointed_append hrun hstop, hnext] at hone
  by_contra hcount
  rw [if_pos (by omega)] at hone
  simp at hone

theorem isChain_points_split {c : Char} (hc : c ≠ '.') (left : Text) {right : Text} :
    List.IsChain (fun a b => b = '.' → a ≠ '.') (left ++ c :: right) ↔
      List.IsChain (fun a b => b = '.' → a ≠ '.') left ∧
      List.IsChain (fun a b => b = '.' → a ≠ '.') right := by
  refine ⟨fun h => ⟨h.left_of_append, h.right_of_append.tail⟩, fun ⟨hleft, hright⟩ => ?_⟩
  refine List.isChain_append.mpr ⟨hleft, List.isChain_cons.mpr ⟨fun _ _ _ => hc, hright⟩, ?_⟩
  rintro a - b hb rfl
  exact absurd (by simpa using hb) hc

/-- Two points in a row are refused, but for two at the end, of which the last one goes. -/
theorem Settles.eq_nil_of_points (hs : Settles (left ++ '.' :: '.' :: right) u) : right = [] := by
  have hkept : KeptBy settlingPairs fun t =>
    ¬ List.IsChain (fun a b => b = '.' → a ≠ '.') t.dropLast := by
    intro e he left right hnot hchain
    refine hnot ?_
    obtain ⟨ha, hpair⟩ := settling_cases (.inl he)
    have hpoint {c : Char} (hc : isOperandCharacter c = false) : c ≠ '.' := by
      rintro rfl
      cases hc
    rcases List.eq_nil_or_concat' right with rfl | ⟨right, d, rfl⟩
    · have hleft : List.IsChain (fun a b => b = '.' → a ≠ '.') left := by
        rcases hpair with ⟨-, c, hr, -⟩ | ⟨-, hr⟩
        · simpa [hr, List.dropLast_append] using hchain
        · rw [hr, List.append_nil, List.dropLast_append_of_ne_nil (by simp)] at hchain
          exact hchain.left_of_append
      rw [List.dropLast_append_of_ne_nil (by simp)]
      exact (isChain_points_split (hpoint ha) left).mpr ⟨hleft, .nil⟩
    · rw [← List.append_assoc, ← List.append_assoc, List.dropLast_concat,
        List.append_assoc] at hchain
      rw [← List.cons_append, ← List.cons_append, ← List.append_assoc, List.dropLast_concat,
        isChain_points_split (hpoint ha)]
      rcases hpair with ⟨hb, c, hr, hc⟩ | ⟨hb, hr⟩
      · rw [hr, List.singleton_append, isChain_points_split (hpoint hc)] at hchain
        exact ⟨hchain.1, (isChain_points_split (hpoint hb) []).mpr ⟨.nil, hchain.2⟩⟩
      · rw [hr, List.cons_append, isChain_points_split (hpoint ha)] at hchain
        exact ⟨hchain.1, hb ▸ hchain.2.tail⟩
  have hsettled :
      List.IsChain (fun a b => b = '.' → a ≠ '.') (settled (left ++ '.' :: '.' :: right)) :=
    (isChain_of_checkPairs hs.pairs).imp fun a b hab => by
      rintro rfl rfl
      exact hab (by decide)
  have hchain :
      List.IsChain (fun a b => b = '.' → a ≠ '.') (left ++ '.' :: '.' :: right).dropLast := by
    by_contra hnot
    refine completePoints_cases (Q := fun t => ¬ List.IsChain (fun a b => b = '.' → a ≠ '.') t)
      hkept (fun t ht => ?_)
      (fun t _ ht hchain => ht hchain.dropLast) (collapseSigns_induction hkept hnot) hsettled
    rwa [List.dropLast_concat] at ht
  by_contra hne
  obtain ⟨last, c, rfl⟩ := (List.eq_nil_or_concat' right).resolve_left hne
  have hpoints : (left ++ '.' :: '.' :: (last ++ [c])).dropLast = left ++ '.' :: '.' :: last := by
    rw [← List.cons_append, ← List.cons_append, ← List.append_assoc, List.dropLast_concat]
  rw [hpoints] at hchain
  exact (List.isChain_append_cons_cons.mp hchain).2.1 rfl rfl

end Tidying

/-- Every number of a text that can be read has one point at most, once the empty groups that are no
argument lists are gone and the points at its end are left aside, unless a letter follows. Only at
the end of a text are there two points in a row. -/
theorem numberIn_of_canonical {v : Vocabulary} {t n : Text} (h : canonical v t = .ok n) :
    (∀ left run right, NumberIn (withoutEmptyGroups v.isCallable (lowercase (withoutBlanks t)))
      left run right → (settledNumber run right.head?).count '.' ≤ 1) ∧
    ∀ left right, lowercase (withoutBlanks t) = left ++ '.' :: '.' :: right → right = [] := by
  obtain ⟨u, hu, -⟩ := bind_eq_ok.mp h
  refine ⟨fun left run right hnumber => hnumber.count_le (overPointedNumbers_of_tidyFrom hu),
    fun left right ht => ?_⟩
  rw [tidy, tidyFrom_eq, bind_eq_ok, ht] at hu
  obtain ⟨w, hw, -⟩ := hu
  exact (settleSigns_eq_ok hw).eq_nil_of_points

theorem numberIn_of_canonical_dangling :
    canonical .standard "4.5. + x()1.2.3".toList = .ok "4.5+x1.2.3".toList ∧
    NumberIn (withoutEmptyGroups Vocabulary.standard.isCallable
      (lowercase (withoutBlanks "4.5. + x()1.2.3".toList)))
      [] "4.5.".toList "+x1.2.3".toList ∧
      (settledNumber "4.5.".toList (some '+')).count '.' ≤ 1 := by
  have hread : canonical .standard "4.5. + x()1.2.3".toList = .ok "4.5+x1.2.3".toList := by
    with_unfolding_all rfl
  have hnumber : NumberIn
      (withoutEmptyGroups Vocabulary.standard.isCallable
        (lowercase (withoutBlanks "4.5. + x()1.2.3".toList))) [] "4.5.".toList "+x1.2.3".toList :=
    ⟨by with_unfolding_all rfl, by simp, by simp [isNumeric], by simp [isNumeric]⟩
  exact ⟨hread, hnumber, (numberIn_of_canonical hread).1 _ _ _ hnumber⟩

/-- Points that dangle are no part of a number, nor is what an empty group parts from a word. -/
theorem numberIn_two_points :
    (canonical .standard "1.2.+3".toList = .ok "1.2+3".toList ∧
      NumberIn (withoutBlanks "1.2.+3".toList) [] "1.2.".toList "+3".toList ∧
      "1.2.".toList.count '.' = 2) ∧
    (canonical .standard "1..".toList = .ok "1".toList ∧
      NumberIn (withoutBlanks "1..".toList) [] "1..".toList [] ∧ "1..".toList.count '.' = 2) ∧
    canonical .standard "x()1.2.3".toList = .ok "x1.2.3".toList ∧
      NumberIn (withoutBlanks "x()1.2.3".toList) "x()".toList "1.2.3".toList [] ∧
      "1.2.3".toList.count '.' = 2 := by
  refine ⟨⟨by with_unfolding_all rfl,
    ⟨by with_unfolding_all rfl, by simp, by simp [isNumeric], by simp [isNumeric]⟩, rfl⟩,
    ⟨by with_unfolding_all rfl, ⟨by with_unfolding_all rfl, by simp, by simp [isNumeric], by simp⟩,
      rfl⟩, by with_unfolding_all rfl,
      ⟨by with_unfolding_all rfl, ?_, by simp [isNumeric], by simp⟩, rfl⟩
  simp
  decide

end Abacus
