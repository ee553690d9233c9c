import Abacus.Proofs.Canonical.InOrder
import Abacus.Proofs.Canonical.Insertion
import Abacus.Proofs.Naming.Words

/-! Grouping keeps the words of a text: it puts parentheses only where an operand begins or ends. -/

namespace Abacus

section Runs

variable {before t : Text}

theorem head_runWith (opening closing : Char) (stops : Char → Bool) (depth : Nat) (t : Text) :
    ∀ c ∈ (runWith opening closing stops depth t).2.head?, c = closing ∨ stops c = true := by
  fun_induction runWith opening closing stops depth t with
  | case1 => simp
  | case2 depth rest ih => exact ih
  | case3 _ c rest _ hstop => simpa using hstop.2
  | case4 depth c rest _ _ ih => exact ih

theorem last_before_operand (before : Text) :
    ∀ c ∈ (operandBefore before).2.reverse.getLast?, isOperandCharacter c = false := by
  intro c hc
  rw [List.getLast?_reverse] at hc
  rcases head_runWith _ _ _ _ _ c hc with rfl | hstop
  · decide
  · simpa using hstop

theorem head_after_exponent (t : Text) :
    ∀ c ∈ (exponentAfter t).2.head?, isOperandCharacter c = false := by
  have hrun (t : Text) : ∀ c ∈ (runWith '(' ')' (fun c => !isOperandCharacter c) 0 t).2.head?,
      isOperandCharacter c = false := by
    intro c hc
    rcases head_runWith _ _ _ _ _ c hc with rfl | hstop
    · decide
    · simpa using hstop
  unfold exponentAfter
  split
  · exact hrun _
  · exact hrun _

theorem head_after_term (t : Text) : ∀ c ∈ (termAfter t).2.head?, isOperandCharacter c = false := by
  intro c hc
  rcases head_runWith _ _ _ _ _ c hc with rfl | hstop
  · decide
  · simp only [List.contains_iff_mem, List.mem_cons, List.not_mem_nil, or_false] at hstop
    rcases hstop with rfl | rfl | rfl | rfl | rfl <;> decide

end Runs

namespace ReadsWords

variable {f : Text → List Text} (hf : ReadsWords f)
include hf

theorem enclosed (before : Text) :
    f ((operandBefore before).2.reverse ++ '(' :: (operandBefore before).1.reverse) =
      f before.reverse := by
  have htext : (operandBefore before).1 ++ (operandBefore before).2 = before := runWith_append ..
  rw [hf.split (by decide), ← hf.append_of_last (last_before_operand before),
    ← List.reverse_append, htext]

theorem groupFactorials (before t : Text) :
    f (groupFactorials before t) = f (before.reverse ++ t) := by
  fun_induction Abacus.groupFactorials before t with
  | case1 before => rw [List.append_nil]
  | case2 before c rest hc ih =>
    obtain ⟨rfl, -⟩ := hc
    have hsplit := hf.split (c := '!') (by decide)
    have htext :
        (')' :: '!' :: ((operandBefore before).1 ++ '(' :: (operandBefore before).2)).reverse ++
          rest = ((operandBefore before).2.reverse ++ '(' :: (operandBefore before).1.reverse) ++
            '!' :: ')' :: rest := by simp
    rw [ih, htext, hsplit, hf.enclosed, hf.cons (by decide), hsplit]
  | case3 before c rest _ ih => simpa using ih

theorem groupPowers (before t : Text) : f (groupPowers before t) = f (before.reverse ++ t) := by
  fun_induction Abacus.groupPowers before t with
  | case1 before => rw [List.append_nil]
  | case2 before c rest hc ih =>
    obtain ⟨rfl, -⟩ := hc
    have hsplit := hf.split (c := '^') (by decide)
    have htext (after : Text) :
        ('^' :: ((operandBefore before).1 ++ '(' :: (operandBefore before).2)).reverse ++ after =
          ((operandBefore before).2.reverse ++ '(' :: (operandBefore before).1.reverse) ++ '^' ::
            after := by simp
    have hclose : f ((exponentAfter rest).1 ++ ')' :: (exponentAfter rest).2) = f rest := by
      rw [hf.split (by decide), ← hf.append_of_first _ (head_after_exponent rest),
        exponentAfter_append]
    rw [ih, htext, hsplit, hf.enclosed, hclose, hsplit]
  | case3 before c rest _ ih => simpa using ih

theorem groupNegatives (before t : Text) :
    f (groupNegatives before t) = f (before.reverse ++ t) := by
  fun_induction Abacus.groupNegatives before t with
  | case1 before => rw [List.append_nil]
  | case2 before c rest hc ih =>
    obtain ⟨rfl, -⟩ := hc
    have hopen : f (opening before.head? ++ before).reverse = f before.reverse := by
      rcases opening_cases before.head? with he | he
      · simpa [he] using hf.concat (by decide) before.reverse
      · have hplus := hf.concat (c := '+') (by decide) before.reverse
        have hgroup := hf.concat (c := '(') (by decide) (before.reverse ++ ['+'])
        simpa [he] using hgroup.trans hplus
    have hsplit := hf.split (c := '-') (by decide)
    have hclose : f ((termAfter rest).1 ++ ')' :: (termAfter rest).2) = f rest := by
      rw [hf.split (by decide), ← hf.append_of_first _ (head_after_term rest), termAfter_append]
    rw [ih, List.reverse_cons, List.append_assoc, List.singleton_append, hsplit, hopen,
      hclose, hsplit]
  | case3 before c rest _ ih => simpa using ih

theorem withGroups (t : Text) : f (withGroups t) = f t := by
  have hproduct (t : Text) : f (replacePair ')' '(' [')', '*', '('] t) = f t := by
    refine replacePair_induction (P := fun u => f u = f t) (fun left right h => ?_) rfl
    rw [← h, List.cons_append, hf.split (by decide), hf.split (by decide), List.cons_append,
      hf.cons (c := '*') (by decide)]
    rfl
  rw [Abacus.withGroups, hf.withoutOuterGroups, scopeNegatives, hproduct, hf.groupNegatives,
    scopePowers, List.reverse_nil, List.nil_append, hf.groupPowers, scopeFactorials,
    List.reverse_nil, List.nil_append, hf.groupFactorials]
  rfl

end ReadsWords

end Abacus
