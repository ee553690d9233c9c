import Abacus.Proofs.Canonical.Runs
import Abacus.Proofs.Naming.Words

/-! Writing out the products keeps the words of a text: the signs stand between operands, and a zero
goes before a point that begins a number. Only before a point in a word it stands inside a word. -/

namespace Abacus

/-- A way of reading words for which it makes no difference whether a zero stands before a point in
a word. -/
structure ReadsPoints (f : Text → List Text) : Prop extends ReadsWords f where
  zero {x b : Char} (hx : isNameStart x = true) (hb : b.isAlphanum = true) (left right : Text) :
    f (left ++ x :: '0' :: '.' :: b :: right) = f (left ++ x :: '.' :: b :: right)

theorem readsPoints_pointedWords : ReadsPoints pointedWords where
  toReadsWords := readsWords_pointedWords
  zero := pointedWords_zero

/-- No point follows another, and after a point that follows a letter there is a letter or a
digit. -/
def PointsInside (t : Text) : Prop := ∀ left x right, t = left ++ x :: '.' :: right →
  x ≠ '.' ∧ (isNameStart x = true → ∃ b rest, right = b :: rest ∧ b.isAlphanum = true)

section Stars

variable {f : Text → List Text} {left right t : Text}

namespace ReadsParts

variable (hf : ReadsParts f)
include hf

theorem star_of_last (h : ∀ c ∈ left.getLast?, isOperandCharacter c = false) (right : Text) :
    f (left ++ '*' :: right) = f (left ++ right) := by
  rw [hf.split (by decide), hf.append_of_last h]

theorem star_of_first (left : Text) (h : ∀ c ∈ right.head?, isOperandCharacter c = false) :
    f (left ++ '*' :: right) = f (left ++ right) := by
  rw [hf.split (by decide), hf.append_of_first left h]

theorem zero_of_last (h : ∀ c ∈ left.getLast?, isOperandCharacter c = false) (right : Text) :
    f (left ++ '0' :: right) = f (left ++ right) := by
  rw [hf.append_of_last h, hf.digit (by decide), ← hf.append_of_last h]

theorem separateGroups (first t : Text) :
    f (first ++ separateGroups first.getLast? t) = f (first ++ t) := by
  induction t generalizing first with
  | nil => rfl
  | cons c t ih =>
    have hnext : f (first ++ c :: Abacus.separateGroups (some c) t) = f (first ++ c :: t) := by
      simpa using ih (first ++ [c])
    rw [Abacus.separateGroups]
    split
    · next hc =>
      rw [hf.star_of_last fun d hd => ?_, hnext]
      have hend : d = ')' ∨ d = '!' := by simpa [endsGroup, Option.mem_def.mp hd] using hc.2
      rcases hend with rfl | rfl <;> decide
    · exact hnext

theorem separateNumbers
    (hzero : ∀ first rest, t = first ++ '.' :: rest → ¬ first.getLast?.any Char.isDigit = true →
      f (first ++ '0' :: '.' :: separateNumbers (some '.') .number rest) =
        f (first ++ '.' :: separateNumbers (some '.') .number rest)) :
    f (separateNumbers none .neither t) = f t := by
  suffices hall : ∀ first rest within, t = first ++ rest →
    f (first ++ Abacus.separateNumbers first.getLast? within rest) = f t from hall [] t .neither rfl
  intro first rest within ht
  induction rest generalizing first within with
  | nil => rw [ht]; rfl
  | cons c rest ih =>
    have hnext (within : Within) : f (first ++ c :: Abacus.separateNumbers (some c) within rest) =
        f t := by
      simpa using ih (first ++ [c]) within (by simpa using ht)
    have hend (hc : endsGroup first.getLast? = true) : ∀ d ∈ first.getLast?, isOperandCharacter d =
        false := fun d hd => by
      have hd' : d = ')' ∨ d = '!' := by simpa [endsGroup, Option.mem_def.mp hd] using hc
      rcases hd' with rfl | rfl <;> decide
    rw [Abacus.separateNumbers]
    split
    · split
      · exact hnext _
      · split
        · next hc => rw [hf.star_of_last (hend hc.2), hnext]
        · exact hnext _
    · split
      · next hc =>
        subst hc
        split
        · next hc => rw [hf.star_of_last (hend hc), hf.zero_of_last (hend hc), hnext]
        · split
          · exact hnext _
          · next hdigit =>
            rw [← hnext .number]
            exact hzero first rest ht hdigit
      · split
        · split
          · next hc _ =>
            subst hc
            rw [hf.star_of_first _ (by simp; decide), hnext]
          · exact hnext _
        · split
          · exact hnext _
          · exact hnext _

theorem separated (hpoints : List.IsChain AfterDigit ('(' :: t)) :
    f (Abacus.separateGroups none (Abacus.separateNumbers none .neither t)) = f t := by
  refine (hf.separateGroups [] _).trans
    (hf.separateNumbers fun first rest ht hdigit => absurd ?_ hdigit)
  rw [ht] at hpoints
  rcases List.eq_nil_or_concat' first with rfl | ⟨left, x, rfl⟩
  · exact absurd (hpoints.rel rfl) (by decide)
  · rw [List.append_assoc] at hpoints
    simpa using isChain_pair hpoints.tail rfl

end ReadsParts

theorem ReadsWords.star_of_number (hf : ReadsWords f) (h : EndsRun [] left) (right : Text) :
    f (left ++ '*' :: right) = f (left ++ right) := by
  obtain ⟨before, run, rfl, hbefore, hrun⟩ := h
  have hnumber := hf.number hrun
  have hnone : f run = [] := by simpa [hf.nil] using hnumber []
  rw [hf.split (by decide), List.append_nil, List.append_assoc, hf.append_of_last hbefore,
    hf.append_of_last hbefore, hnumber, hnone, List.append_nil]

end Stars

section Words

variable {f : Text → List Text} (hf : ReadsWords f) {v : Vocabulary} {word first t u : Text}
  {inNumber : Bool} {c : Char}

theorem EndsRun.digit (h : EndsRun [] first) (hc : c.isDigit = true ∨ c = '.') :
    EndsRun [] (first ++ [c]) := by
  obtain ⟨before, run, rfl, hbefore, hrun⟩ := h
  refine ⟨before, run ++ [c], by simp, hbefore, fun d hd => ?_⟩
  rcases List.mem_append.mp hd with hd | hd
  · exact hrun d hd
  · rwa [List.mem_singleton.mp hd]

theorem endsRun_of_stop (hc : isOperandCharacter c = false) : EndsRun [] (first ++ [c]) :=
  ⟨first ++ [c], [], by simp, by simpa using hc, by simp⟩

include hf

/-- The words of what is read so far and of what is still to be read, where a number ends unless a
word does. -/
theorem ReadsWords.separateWords (hfirst : word = [] → EndsRun [] first)
    (hs : separateWords v word inNumber t = .ok u) : f (first ++ u) = f (first ++ t) := by
  have hstop {c : Char} (hd : ¬ (c.isDigit = true ∨ c = '.')) (hs : ¬ isNameStart c = true) :
      isOperandCharacter c = false :=
    not_operand_iff.mpr ⟨hd, hs⟩
  have hnext {c : Char} {first rest w : Text} (h : f (first ++ [c] ++ w) =
      f (first ++ [c] ++ rest)) : f (first ++ c :: w) = f (first ++ c :: rest) := by
    simpa using h
  fun_induction Abacus.separateWords v word inNumber t generalizing u first
  case case1 | case10 => cases hs
  case case2 =>
    obtain rfl : [] = u := by simpa using hs
    rfl
  case case3 hc ih =>
    obtain ⟨w, hw, rfl⟩ := map_eq_ok.mp hs
    exact hnext (ih (fun _ => (hfirst rfl).digit hc) hw)
  case case4 ih =>
    obtain ⟨w, hw, rfl⟩ := map_eq_ok.mp hs
    exact hnext (ih (fun h => absurd h (List.cons_ne_nil _ _)) hw)
  case case5 hc ih =>
    obtain ⟨w, hw, rfl⟩ := map_eq_ok.mp hs
    rw [hf.star_of_number (hfirst hc.1)]
    exact hnext (ih (fun h => absurd h (List.cons_ne_nil _ _)) hw)
  case case6 ih =>
    obtain ⟨w, hw, rfl⟩ := map_eq_ok.mp hs
    exact hnext (ih (fun h => absurd h (List.cons_ne_nil _ _)) hw)
  case case7 hc ih =>
    obtain ⟨w, hw, rfl⟩ := map_eq_ok.mp hs
    rw [hf.star_of_number (hfirst rfl)]
    exact hnext (ih (fun _ => endsRun_of_stop (hc.1 ▸ by decide)) hw)
  case case11 ih =>
    obtain ⟨w, hw, rfl⟩ := map_eq_ok.mp hs
    rw [hf.star_of_first _ (by simp; decide)]
    exact hnext (ih (fun _ => endsRun_of_stop (by decide)) hw)
  case case8 hd hname _ ih =>
    obtain ⟨w, hw, rfl⟩ := map_eq_ok.mp hs
    exact hnext (ih (fun _ => endsRun_of_stop (hstop hd hname)) hw)
  case case9 _ _ hd hname ih =>
    obtain ⟨w, hw, rfl⟩ := map_eq_ok.mp hs
    exact hnext (ih (fun _ => endsRun_of_stop (hstop hd hname)) hw)
  case case12 hd hname _ _ _ ih =>
    obtain ⟨w, hw, rfl⟩ := map_eq_ok.mp hs
    exact hnext (ih (fun _ => endsRun_of_stop (hstop hd hname)) hw)

end Words

theorem endsRun_nil : EndsRun [] [] := ⟨[], [], rfl, by simp, by simp⟩

/-- Writing out the products keeps the words if every point comes after a digit. -/
theorem ReadsWords.written {f : Text → List Text} (hf : ReadsWords f) {v : Vocabulary} {u n : Text}
    (hw : Written v u n) (hpoints : List.IsChain AfterDigit ('(' :: dropPoints u)) :
    f n = f (dropPoints u) :=
  (hf.separateWords (fun _ => endsRun_nil) hw.words).trans (hf.separated hpoints)

theorem exists_separateNumbers_alphanum {b : Char} (hb : b.isAlphanum = true) (right : Text) :
    ∃ others, separateNumbers (some '.') .number (b :: right) = b :: others := by
  cases hd : b.isDigit with
  | true => exact ⟨_, by rw [separateNumbers, if_pos hd, if_neg (by decide), if_neg (by decide)]⟩
  | false =>
    have hname : isNameStart b = true := by
      simp only [Char.isAlphanum, hd, Bool.or_false] at hb
      simp [isNameStart, hb]
    exact ⟨_, separateNumbers_nameStart hname _ _ _⟩

namespace ReadsPoints

variable {f : Text → List Text} (hf : ReadsPoints f) {v : Vocabulary} {t u n : Text}
include hf

theorem zero_separated {first rest : Text} (hpoints : PointsInside (first ++ '.' :: rest))
    (hdigit : ¬ first.getLast?.any Char.isDigit = true) :
    f (first ++ '0' :: '.' :: separateNumbers (some '.') .number rest) =
      f (first ++ '.' :: separateNumbers (some '.') .number rest) := by
  rcases List.eq_nil_or_concat' first with rfl | ⟨left, x, rfl⟩
  · exact hf.zero_of_last (by simp) _
  cases hx : isOperandCharacter x with
  | false => exact hf.zero_of_last (by simpa using hx) _
  | true =>
    obtain ⟨hne, hinside⟩ := hpoints left x rest (by simp)
    have hname : isNameStart x = true := by
      rw [isOperandCharacter_iff] at hx
      simp only [List.getLast?_concat, Option.any_some] at hdigit
      tauto
    obtain ⟨b, right, rfl, hb⟩ := hinside hname
    obtain ⟨others, hothers⟩ := exists_separateNumbers_alphanum hb right
    simpa [hothers] using hf.zero hname hb left others

/-- Writing out the products keeps the words. -/
theorem written (hw : Written v u n) (hpoints : PointsInside (dropPoints u)) :
    f n = f (dropPoints u) := by
  have hwords := hf.toReadsWords.separateWords (fun _ => endsRun_nil) hw.words
  have hgroups :=
    hf.toReadsParts.separateGroups [] (Abacus.separateNumbers none .neither (dropPoints u))
  exact hwords.trans
    (hgroups.trans (hf.separateNumbers fun first rest ht => hf.zero_separated (ht ▸ hpoints)))

end ReadsPoints

end Abacus
