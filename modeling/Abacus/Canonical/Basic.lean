import Abacus.Canonical.Tidy

/-! Groups around every factorial, power and negative term, so that what a sign applies to can be
seen without knowing which sign binds tighter. The text so far is held last character first. -/

namespace Abacus

def isOperandCharacter (c : Char) : Bool := c.isAlphanum || c == '.' || c == '_'

/-- Stands in a group of its own already. What stands between is a run in which groups are whole, so
that these two parentheses belong together (`splitGroup_factorial`, `splitGroup_power`). -/
def isEnclosed (before after : Text) : Bool := before.head? == some '(' && after.head? == some ')'

/-- The operand that the text so far ends with, and what comes before it. -/
def operandBefore (before : Text) : Text × Text :=
  runWith ')' '(' (fun c => !isOperandCharacter c) 0 before

/-- The operand that the text begins with, a minus in front included, and what comes after it. -/
def exponentAfter : Text → Text × Text
  | '-' :: rest => (runWith '(' ')' (fun c => !isOperandCharacter c) 0 rest).map ('-' :: ·) id
  | t => runWith '(' ')' (fun c => !isOperandCharacter c) 0 t

/-- The term that the text begins with, and what comes after it. -/
def termAfter (t : Text) : Text × Text := runWith '(' ')' ['+', '-', '*', '/', ','].contains 0 t

theorem exponentAfter_append (t : Text) : (exponentAfter t).1 ++ (exponentAfter t).2 = t := by
  unfold exponentAfter
  split <;> simp [runWith_append]

theorem termAfter_append (t : Text) : (termAfter t).1 ++ (termAfter t).2 = t := runWith_append ..

def groupFactorials (before : Text) : Text → Text
  | [] => before.reverse
  | c :: rest =>
    if c = '!' ∧ (operandBefore before).1 ≠ [] ∧
      isEnclosed (operandBefore before).2 rest = false then
      groupFactorials (')' :: '!' :: ((operandBefore before).1 ++ '(' :: (operandBefore before).2))
        rest
    else groupFactorials (c :: before) rest

/-- A new group is opened before the base and closed after the exponent, which is still to be gone
through. -/
def groupPowers (before : Text) : Text → Text
  | [] => before.reverse
  | c :: rest =>
    if c = '^' ∧ isEnclosed (operandBefore before).2 (exponentAfter rest).2 = false then
      groupPowers (c :: ((operandBefore before).1 ++ '(' :: (operandBefore before).2))
        ((exponentAfter rest).1 ++ ')' :: (exponentAfter rest).2)
    else groupPowers (c :: before) rest
termination_by t => t.length + t.count '^'
decreasing_by
  · next h =>
    have hl := congrArg List.length (exponentAfter_append rest)
    have hc := congrArg (List.count '^') (exponentAfter_append rest)
    simp only [List.length_append, List.count_append] at hl hc
    simp [h.1]
    omega
  · simp only [List.length_cons, List.count_cons]
    omega

/-- What goes before a minus after this text, last character first: a difference becomes the sum
with a negative term. -/
def opening : Option Char → Text
  | none => ['(']
  | some c => if ['*', '/', ',', '^'].contains c then ['('] else ['(', '+']

/-- A minus after an opening parenthesis stands in a group of its own already. -/
def groupNegatives (before : Text) : Text → Text
  | [] => before.reverse
  | c :: rest =>
    if c = '-' ∧ before.head? ≠ some '(' then
      groupNegatives (c :: (opening before.head? ++ before))
        ((termAfter rest).1 ++ ')' :: (termAfter rest).2)
    else groupNegatives (c :: before) rest
termination_by t => t.length + t.count '-'
decreasing_by
  · next h =>
    have hl := congrArg List.length (termAfter_append rest)
    have hc := congrArg (List.count '-') (termAfter_append rest)
    simp only [List.length_append, List.count_append] at hl hc
    simp [h.1]
    omega
  · simp only [List.length_cons, List.count_cons]
    omega

def scopeFactorials (t : Text) : Text := groupFactorials [] t

def scopePowers (t : Text) : Text := groupPowers [] t

/-- Neighbouring groups are a product. -/
def scopeNegatives (t : Text) : Text := replacePair ')' '(' [')', '*', '('] (groupNegatives [] t)

/-! Canonical text: tidy, and with a group around every factorial, power and negative term. -/

def canonical (v : Vocabulary) (t : Text) : Except ReadError Text := do
  let t ← tidy v t
  tidy v (withoutOuterGroups (scopeNegatives (scopePowers (scopeFactorials t))))

end Abacus
