import Abacus.Proofs.Canonical.EmptyCalls
import Abacus.Proofs.Canonical.Joints
import Abacus.Proofs.Naming.Products

/-! Points before other signs. Without these a text can be read as it is, part by part, and of the
points that are left only one at the end of the text may follow a letter and have nothing after
it. -/

namespace Abacus

section Dropping

variable {t left right : Text} {b : Char}

theorem dropPoints_append
    (h : ∀ a ∈ left.getLast?, ∀ b ∈ right.head?, ¬ (a = '.' ∧ isSpecial b = true)) :
    dropPoints (left ++ right) = dropPoints left ++ dropPoints right := by
  induction left with
  | nil => rfl
  | cons a left ih =>
    cases left with
    | nil =>
      cases right with
      | nil => rfl
      | cons b right => exact if_neg (h a rfl b rfl)
    | cons e left =>
      have hrest := ih h
      rw [List.cons_append, List.cons_append, dropPoints, ← List.cons_append, hrest, dropPoints]
      split
      · rfl
      · rfl

theorem dropPoints_point (hb : isSpecial b = true) (left right : Text) :
    dropPoints (left ++ '.' :: b :: right) = dropPoints (left ++ b :: right) := by
  have hfirst : dropPoints ('.' :: b :: right) = dropPoints (b :: right) := if_pos ⟨rfl, hb⟩
  induction left with
  | nil => exact hfirst
  | cons a left ih =>
    cases left with
    | nil =>
      have hpoint : isSpecial '.' = true := by decide
      simp only [List.cons_append, List.nil_append, dropPoints, hb, hpoint, and_true, ite_true]
    | cons e left =>
      simp only [List.cons_append, dropPoints] at ih ⊢
      rw [ih]

theorem dropPoints_of_not_mem (h : '.' ∉ t) : dropPoints t = t :=
  dropPoints_induction (P := fun u => u = t) (fun left b right _ ht => absurd (ht ▸ by simp) h) rfl

theorem dropPoints_dropPoints (t : Text) : dropPoints (dropPoints t) = dropPoints t :=
  dropPoints_of_isChain (isChain_dropPoints t)

end Dropping

section Reading

variable {f : Text → List Text} {b : Char}

theorem not_special_of_alphanum (hb : b.isAlphanum = true) : isSpecial b = false := by
  have hnot : ∀ c ∈ specialCharacters, c.isAlphanum = false := by
    simp [specialCharacters, Char.isAlphanum, Char.isAlpha, Char.isDigit]
  rw [← Bool.not_eq_true]
  intro hspecial
  rw [hnot b (by simpa [isSpecial] using hspecial)] at hb
  cases hb

theorem ReadsWords.last_dropped (hf : ReadsWords f) (t : Text) :
    f (dropPoints (t ++ ['.'])) = f (dropPoints t) := by
  rcases List.eq_nil_or_concat' t with rfl | ⟨left, c, rfl⟩
  · exact hf.last []
  by_cases hc : c = '.'
  · subst hc
    rw [List.append_assoc]
    exact congrArg f (dropPoints_point (by decide) left [])
  · rw [dropPoints_append (by simpa using fun h => absurd h hc)]
    exact hf.last _

theorem ReadsWords.split_dropped (hf : ReadsWords f) {c : Char} (hc : isOperandCharacter c = false)
    (left right : Text) :
    f (dropPoints (left ++ c :: right)) = f (dropPoints left) ++ f (dropPoints right) := by
  have hpoint : c ≠ '.' := by
    rintro rfl
    cases hc
  induction left using List.reverseRecOn with
  | nil =>
    rw [List.nil_append, dropPoints_cons hpoint, hf.cons hc, show f (dropPoints []) =
      [] from hf.nil, List.nil_append]
  | append_singleton left d ih =>
    by_cases hd : d = '.' ∧ isSpecial c = true
    · obtain ⟨rfl, hspecial⟩ := hd
      rw [List.append_assoc, List.singleton_append, dropPoints_point hspecial, hf.last_dropped, ih]
    · rw [dropPoints_append (by simpa using hd), dropPoints_cons hpoint, hf.split hc]

theorem ReadsWords.dropped (hf : ReadsWords f) : ReadsWords fun t => f (dropPoints t) where
  nil := hf.nil
  split := hf.split_dropped
  first {c} hc t := by
    by_cases hpoint : c = '.'
    · subst hpoint
      cases t with
      | nil => exact hf.first hc []
      | cons b t =>
        rw [dropPoints]
        split
        · rfl
        · exact hf.first hc _
    · rw [dropPoints_cons hpoint, hf.first hc]
  last := hf.last_dropped
  identifier {t} ht := by
    obtain ⟨c, rest, rfl, -, -, hall⟩ := isIdentifier_cases ht
    rw [dropPoints_of_not_mem fun hmem => absurd (hall '.' hmem) (by decide), hf.identifier ht]

theorem ReadsPoints.dropped (hf : ReadsPoints f) : ReadsPoints fun t => f (dropPoints t) where
  toReadsWords := hf.toReadsWords.dropped
  zero {x b} hx hb left right := by
    obtain ⟨left', hleft⟩ := exists_dropPoints_split (ne_of_nameStart hx (by decide)) left
    have hafter : dropPoints ('.' :: b :: right) = '.' :: b :: dropPoints right := by
      rw [dropPoints, if_neg (by simp [not_special_of_alphanum hb]), dropPoints_cons]
      rintro rfl
      exact absurd hb (by decide)
    rw [hleft, hleft, dropPoints_cons (by decide), hafter, hf.zero hx hb]

end Reading

/-- The text ends with `after`, and a letter or an underscore stands before that. -/
def EndsAfterLetter (after t : Text) : Prop :=
  ∃ rest c, isNameStart c = true ∧ t = rest ++ c :: after

section Ends

variable {s t u left right : Text} {d : Char}

theorem suffix_of_not_mem (hd : d ∉ s) (h : s <:+ left ++ d :: right) : s <:+ right := by
  rcases List.suffix_or_suffix_of_suffix h (List.suffix_append left (d :: right)) with hs | hs
  · rcases List.suffix_cons_iff.mp hs with rfl | hs
    · exact absurd List.mem_cons_self hd
    · exact hs
  · exact absurd (hs.subset List.mem_cons_self) hd

theorem keptBy_endsAfterLetter {points : Text} (hpoints : ∀ c ∈ points, c = '.')
    {pairs : List (Char × Char × Text)}
    (hpairs : ∀ e ∈ pairs, e ∈ settlingPairs ∨ e ∈ leadingPairs) :
    KeptBy pairs fun t => ¬ EndsAfterLetter points t := by
  intro e he left right hnot hends
  obtain ⟨rest, c, hc, hends⟩ := hends
  have havoid {d : Char} (hd : isNameStart d = false ∧ d ≠ '.') : d ∉ c :: points := by
    intro hmem
    rcases List.mem_cons.mp hmem with rfl | hmem
    · rw [hd.1] at hc
      cases hc
    · exact hd.2 (hpoints d hmem)
  have hsuffix : c :: points <:+ e.1 :: e.2.1 :: right := by
    have hends' : c :: points <:+ left ++ (e.2.2 ++ right) := ⟨rest, hends.symm⟩
    obtain ⟨-, ⟨-, d, hr, hd⟩ | ⟨hpoint, hr⟩⟩ := settling_cases (hpairs e he)
    · have hd' : isNameStart d = false ∧ d ≠ '.' := by
        rw [← Bool.not_eq_true, isOperandCharacter_iff] at hd
        rw [← Bool.not_eq_true]
        tauto
      rw [hr, List.singleton_append] at hends'
      exact (suffix_of_not_mem (havoid hd') hends').trans (List.suffix_append [e.1, e.2.1] right)
    · have hbehind : c :: points <:+ (left ++ [e.1]) ++ '0' :: '.' :: right := by
        simpa [hr] using hends'
      rw [hpoint]
      exact (suffix_of_not_mem (havoid (by decide)) hbehind).trans (List.suffix_cons e.1 _)
  obtain ⟨first, hfirst⟩ := hsuffix
  exact hnot ⟨left ++ first, c, hc, by rw [List.append_assoc, hfirst]⟩

theorem Settles.not_endsAfterLetter (hs : Settles t u) (h : ¬ EndsAfterLetter ['.', '.'] t) :
    ¬ EndsAfterLetter ['.'] u := by
  have hkept : KeptBy settlingPairs fun t => ¬ EndsAfterLetter ['.', '.'] t :=
    keptBy_endsAfterLetter (by simp) fun e he => .inl he
  have hsettled : ¬ EndsAfterLetter ['.'] (settled t) := by
    refine completePoints_cases (Q := fun t => ¬ EndsAfterLetter ['.'] t) hkept ?_ ?_
      (collapseSigns_induction hkept h)
    · rintro t hnot ⟨rest, c, hc, rfl⟩
      exact hnot ⟨rest, c, hc, by simp⟩
    · rintro t hlast - ⟨rest, c, -, rfl⟩
      exact hlast (by simp)
  rw [hs.result]
  refine dropPlus_induction (keptBy_endsAfterLetter (by simp) fun e he => .inr he) ?_ hsettled
  rintro t hnot ⟨rest, c, hc, rfl⟩
  exact hnot ⟨'+' :: rest, c, hc, rfl⟩

/-- Where no point follows another and none at the end follows a letter, every point that follows a
letter has a letter or a digit after it once the points before other signs are gone. -/
theorem pointsInside_dropPoints (hallowed : ∀ c ∈ t, IsAllowed c)
    (hpoints : List.IsChain (fun a b => b = '.' → a ≠ '.') t) (hend : ¬ EndsAfterLetter ['.'] t) :
    PointsInside (dropPoints t) := by
  intro left x right ht
  have hchain := isChain_dropPoints t
  rw [ht, List.isChain_append_cons_cons] at hchain
  obtain ⟨-, hx, hright⟩ := hchain
  refine ⟨fun hpoint => hx ⟨hpoint, by decide⟩, fun hname => ?_⟩
  cases right with
  | nil =>
    have hlast : t.getLast? = some '.' := by
      rw [← getLast?_dropPoints, ht]
      simp
    obtain ⟨u, rfl⟩ := List.getLast?_eq_some_iff.mp hlast
    rcases List.eq_nil_or_concat' u with rfl | ⟨u, c, rfl⟩
    · exact absurd (congrArg List.length ht) (by simp [dropPoints])
    · rw [List.append_assoc] at hpoints
      have hc : c ≠ '.' := (List.isChain_append_cons_cons.mp hpoints).2.1 rfl
      rw [dropPoints_append (by simpa using fun h => absurd h hc), show dropPoints ['.'] =
        ['.'] from rfl] at ht
      have hsame : dropPoints (u ++ [c]) = left ++ [x] :=
        List.append_cancel_right (by simpa using ht)
      have hxc := congrArg List.getLast? hsame
      rw [getLast?_dropPoints, List.getLast?_concat, List.getLast?_concat, Option.some.injEq] at hxc
      exact absurd ⟨u, c, hxc ▸ hname, by simp⟩ hend
  | cons b right =>
    have hb : isSpecial b = false := by simpa using (List.isChain_cons_cons.mp hright).1
    have hmem : b ∈ dropPoints t := by simp [ht]
    refine ⟨b, right, rfl, (hallowed b (mem_of_dropPoints b hmem)).resolve_right ?_⟩
    simp [hb]

end Ends

end Abacus
