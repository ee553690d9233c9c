import Abacus.Text.Basic

/-! Balanced texts as an inductive notion, and how the scans for groups go over them. Read backwards
with the parentheses exchanged, a balanced text is balanced again, so what is shown of a scan holds
in both directions. -/

namespace Abacus

def parentheses (t : Text) : Text := t.filter fun c => c == '(' || c == ')'

theorem isBalancedFrom_parentheses (depth : Nat) (t : Text) :
    isBalancedFrom depth (parentheses t) = isBalancedFrom depth t := by
  induction t generalizing depth with
  | nil => rfl
  | cons c t ih =>
    by_cases ho : c = '('
    · subst ho
      simpa [parentheses, isBalancedFrom] using ih _
    · by_cases hc : c = ')'
      · subst hc
        simpa [parentheses, isBalancedFrom] using congrArg _ (ih _)
      · have hc' : (c == ')') = false := by simpa using hc
        simpa [parentheses, isBalancedFrom, depthAfter, ho, hc, hc'] using ih depth

theorem isBalancedFrom_congr {t u : Text} (h : parentheses t = parentheses u) (depth : Nat) :
    isBalancedFrom depth t = isBalancedFrom depth u := by
  rw [← isBalancedFrom_parentheses, h, isBalancedFrom_parentheses]

/-- Balanced, with a condition on the characters outside all groups. -/
inductive Nested (opening closing : Char) : (Char → Prop) → Text → Prop
  | nil (P : Char → Prop) : Nested opening closing P []
  | char {P : Char → Prop} {c : Char} {t : Text} (hopen : c ≠ opening) (hclose : c ≠ closing)
    (hc : P c) (ht : Nested opening closing P t) : Nested opening closing P (c :: t)
  | group {P : Char → Prop} {inside t : Text}
      (hinside : Nested opening closing (fun _ => True) inside)
      (ht : Nested opening closing P t) : Nested opening closing P
        (opening :: (inside ++ closing :: t))

namespace Nested

variable {o c : Char} {P Q : Char → Prop} {t u left right middle : Text}

theorem mono (h : Nested o c P t) (himp : ∀ x, P x → Q x) : Nested o c Q t := by
  induction h with
  | nil P => exact nil Q
  | char ho hc hx _ ih => exact char ho hc (himp _ hx) (ih himp)
  | group hinside _ _ ih => exact group hinside (ih himp)

theorem append (ht : Nested o c P t) (hu : Nested o c P u) : Nested o c P (t ++ u) := by
  induction ht with
  | nil P => exact hu
  | char ho hc hx _ ih => exact char ho hc hx (ih hu)
  | @group P inside t hinside _ _ ih =>
    have hcons := group hinside (ih hu)
    simpa using hcons

theorem reverse (h : Nested o c P t) : Nested c o P t.reverse := by
  induction h with
  | nil P => exact nil P
  | @char P x t ho hc hx _ ih =>
    rw [List.reverse_cons]
    exact ih.append (char hc ho hx (nil P))
  | @group P inside t _ _ ihinside ih =>
    have hgroup : Nested c o P (c :: (inside.reverse ++ o :: [])) := group ihinside (nil P)
    simpa using ih.append hgroup

/-- A balanced text may be put in anywhere. -/
theorem insert (h : Nested o c P (left ++ right)) (hmiddle : Nested o c P middle) :
    Nested o c P (left ++ (middle ++ right)) := by
  generalize ht : left ++ right = t at h
  induction h generalizing left right with
  | nil P =>
    obtain ⟨rfl, rfl⟩ := List.append_eq_nil_iff.mp ht
    simpa using hmiddle
  | @char P x t ho hc hx hrest ih =>
    cases left with
    | nil =>
      obtain rfl : right = x :: t := ht
      exact hmiddle.append (.char ho hc hx hrest)
    | cons y left =>
      obtain ⟨rfl, htail⟩ : y = x ∧ left ++ right = t := List.cons.inj ht
      exact .char ho hc hx (ih hmiddle htail)
  | @group P inside t hinside hrest ihinside ih =>
    cases left with
    | nil =>
      obtain rfl : right = o :: (inside ++ c :: t) := ht
      exact hmiddle.append (.group hinside hrest)
    | cons y left =>
      obtain ⟨rfl, htail⟩ : y = o ∧ left ++ right = inside ++ c :: t := List.cons.inj ht
      rcases List.append_eq_append_iff.mp htail with ⟨before, rfl, rfl⟩ | ⟨before, rfl, hafter⟩
      · simpa using Nested.group (ihinside (hmiddle.mono fun _ _ => trivial) rfl) hrest
      · rcases List.cons_eq_append_iff.mp hafter with ⟨rfl, rfl⟩ | ⟨before, rfl, rfl⟩
        · simpa using Nested.group (hinside.append (hmiddle.mono fun _ _ => trivial)) hrest
        · simpa using Nested.group hinside (ih hmiddle rfl)

section Runs

variable {stops : Char → Bool} (hoc : c ≠ o)
include hoc

theorem runWith_inside (h : Nested o c P t) (depth : Nat) (rest : Text) :
    runWith o c stops (depth + 1) (t ++ rest) =
      (t ++ (runWith o c stops (depth + 1) rest).1, (runWith o c stops (depth + 1) rest).2) := by
  induction h generalizing depth rest with
  | nil P => rfl
  | char ho hc _ _ ih => simp [runWith, Prod.map, ho, hc, ih]
  | group _ _ ihinside ih => simp [runWith, Prod.map, hoc, ihinside, ih]

theorem runWith_group (h : Nested o c P t) (rest : Text) :
    runWith o c stops 0 (o :: (t ++ c :: rest)) =
      (o :: (t ++ c :: (runWith o c stops 0 rest).1), (runWith o c stops 0 rest).2) := by
  simp [runWith, Prod.map, hoc, h.runWith_inside hoc]

theorem runWith_append (h : Nested o c (fun x => stops x = false) t) (rest : Text) :
    runWith o c stops 0 (t ++ rest) =
      (t ++ (runWith o c stops 0 rest).1, (runWith o c stops 0 rest).2) := by
  generalize hP : (fun x => stops x = false) = P at h
  induction h with
  | nil P => rfl
  | @char P x t ho hc hx _ ih =>
    subst hP
    simp [runWith, Prod.map, ho, hc, hx, ih rfl]
  | @group P inside t hinside _ _ ih =>
    have hgroup : runWith o c stops 0 (o :: (inside ++ c :: (t ++ rest))) = _ :=
      hinside.runWith_group hoc (t ++ rest)
    simp only [List.cons_append, List.append_assoc]
    rw [hgroup, ih hP]

end Runs

theorem splitGroup_append (h : Nested '(' ')' P t) (depth : Nat) (rest : Text) :
    splitGroup depth (t ++ rest) = (splitGroup depth rest).map fun p => (t ++ p.1, p.2) := by
  induction h generalizing depth rest with
  | nil P => simp
  | @char P x t ho hc hx _ ih =>
    simp only [List.cons_append, splitGroup, hc, false_and, if_false, depthAfter, ho, ih,
      Option.map_map]
    rfl
  | @group P inside t hinside _ ihinside ih =>
    simp [splitGroup, depthAfter, ihinside, ih, Function.comp_def]

theorem splitGroup_close (h : Nested '(' ')' P t) (rest : Text) :
    splitGroup 0 (t ++ ')' :: rest) = some (t, rest) := by
  simp [h.splitGroup_append, splitGroup]

theorem isBalancedFrom_append (h : Nested '(' ')' P t) (depth : Nat) (rest : Text) :
    isBalancedFrom depth (t ++ rest) = isBalancedFrom depth rest := by
  induction h generalizing depth rest with
  | nil P => rfl
  | @char P x t ho hc hx _ ih => simp [isBalancedFrom, depthAfter, ho, hc, ih]
  | @group P inside t hinside _ ihinside ih => simp [isBalancedFrom, depthAfter, ihinside, ih]

theorem isBalanced (h : Nested '(' ')' P t) : isBalanced t = true := by
  have happend := h.isBalancedFrom_append 0 []
  rw [List.append_nil] at happend
  exact happend

/-- A text that is balanced from below ground is balanced up to where it comes to the ground. -/
theorem exists_of_isBalancedFrom {depth : Nat} (h : isBalancedFrom (depth + 1) t = true) :
    ∃ inside rest, t = inside ++ ')' :: rest ∧ Nested '(' ')' (fun _ => True) inside ∧
      isBalancedFrom depth rest = true := by
  induction hn : t.length using Nat.strongRecOn generalizing t depth with
  | _ n ih =>
    subst hn
    cases t with
    | nil => simp [isBalancedFrom] at h
    | cons x t =>
      simp only [isBalancedFrom, Bool.and_eq_true] at h
      by_cases hclose : x = ')'
      · subst hclose
        exact ⟨[], t, rfl, nil _, by simpa [depthAfter] using h.2⟩
      · by_cases hopen : x = '('
        · subst hopen
          have hdeep : isBalancedFrom (depth + 2) t = true := by simpa [depthAfter] using h.2
          obtain ⟨inner, after, rfl, hinner, hafter⟩ := ih t.length (Nat.lt_succ_self _) hdeep rfl
          obtain ⟨inside, rest, rfl, hinside, hrest⟩ := ih after.length (by simp; omega) hafter rfl
          exact ⟨'(' :: (inner ++ ')' :: inside), rest, by simp, group hinner hinside, hrest⟩
        · have hrest : isBalancedFrom (depth + 1) t = true := by
            simpa [depthAfter, hopen, hclose] using h.2
          obtain ⟨inside, rest, rfl, hinside, hrest⟩ := ih t.length (Nat.lt_succ_self _) hrest rfl
          exact ⟨x :: inside, rest, rfl, char hopen hclose trivial hinside, hrest⟩

theorem of_isBalanced (h : Abacus.isBalanced t = true) : Nested '(' ')' (fun _ => True) t := by
  induction hn : t.length using Nat.strongRecOn generalizing t with
  | _ n ih =>
    subst hn
    cases t with
    | nil => exact nil _
    | cons x t =>
      simp only [Abacus.isBalanced, isBalancedFrom, Bool.and_eq_true] at h
      by_cases hopen : x = '('
      · subst hopen
        obtain ⟨inside, rest, rfl, hinside, hrest⟩ :=
          exists_of_isBalancedFrom (by simpa [depthAfter] using h.2)
        exact group hinside (ih rest.length (by simp; omega) hrest rfl)
      · have hclose : x ≠ ')' := by
          rintro rfl
          simp at h
        have hrest : Abacus.isBalanced t = true := by
          simpa [Abacus.isBalanced, depthAfter, hopen, hclose] using h.2
        exact char hopen hclose trivial (ih t.length (Nat.lt_succ_self _) hrest rfl)

theorem piecesAtTop_inside {separator : Char} (h : Nested '(' ')' P t) (depth : Nat) (rest : Text) :
    piecesAtTop separator (depth + 1) (t ++ rest) =
      (t ++ (piecesAtTop separator (depth + 1) rest).1,
        (piecesAtTop separator (depth + 1) rest).2) := by
  induction h generalizing depth rest with
  | nil P => rfl
  | char ho hc _ _ ih => simp [piecesAtTop, Prod.map, depthAfter, ho, hc, ih]
  | group _ _ ihinside ih => simp [piecesAtTop, Prod.map, depthAfter, ihinside, ih]

theorem piecesAtTop_append {separator : Char} (h : Nested '(' ')' (· ≠ separator) t)
    (hopen : separator ≠ '(') (rest : Text) :
    piecesAtTop separator 0 (t ++ rest) =
      (t ++ (piecesAtTop separator 0 rest).1, (piecesAtTop separator 0 rest).2) := by
  generalize hP : (· ≠ separator) = P at h
  induction h with
  | nil P => rfl
  | @char P x t ho hc hx _ ih =>
    subst hP
    simp [piecesAtTop, Prod.map, depthAfter, ho, hc, hx, ih rfl]
  | @group P inside t hinside _ _ ih =>
    simp [piecesAtTop, Prod.map, depthAfter, hinside.piecesAtTop_inside, ih hP, hopen.symm]

theorem splitAtTop_eq_singleton {separator : Char} (h : Nested '(' ')' (· ≠ separator) t)
    (hopen : separator ≠ '(') : splitAtTop separator t = [t] := by
  have hpieces := h.piecesAtTop_append hopen []
  rw [List.append_nil] at hpieces
  simp [splitAtTop, hpieces, piecesAtTop]

theorem splitAtTop_cons {separator : Char} (h : Nested '(' ')' (· ≠ separator) t)
    (hopen : separator ≠ '(') (rest : Text) :
    splitAtTop separator (t ++ separator :: rest) = t :: splitAtTop separator rest := by
  simp [splitAtTop, h.piecesAtTop_append hopen, piecesAtTop]

section Last

variable {sign : Char} {counts : Option Char → Bool} {rest : Text} {depth : Nat}

theorem splitAtLast?_append_some {left right : Text} (h : Nested '(' ')' P t)
    (hrest : ∀ previous, splitAtLast? sign counts depth previous rest = some (left, right))
    (previous : Option Char) :
    splitAtLast? sign counts depth previous (t ++ rest) = some (t ++ left, right) := by
  induction h generalizing depth previous rest left with
  | nil P => exact hrest previous
  | char ho hc _ _ ih => simp [splitAtLast?, depthAfter, ho, hc, ih hrest]
  | @group P inside t _ _ ihinside ih =>
    have hclose (previous : Option Char) : splitAtLast? sign counts (depth + 1) previous
        (')' :: (t ++ rest)) = some (')' :: (t ++ left), right) := by
      simp [splitAtLast?, depthAfter, ih hrest]
    simp [splitAtLast?, depthAfter, ihinside hclose]

theorem splitAtLast?_inside (h : Nested '(' ')' P t)
    (hrest : ∀ previous, splitAtLast? sign counts (depth + 1) previous rest = none)
    (previous : Option Char) :
    splitAtLast? sign counts (depth + 1) previous (t ++ rest) = none := by
  induction h generalizing depth previous rest with
  | nil P => exact hrest previous
  | char ho hc _ _ ih => simp [splitAtLast?, depthAfter, ho, hc, ih hrest]
  | @group P inside t _ _ ihinside ih =>
    have hclose (previous : Option Char) :
        splitAtLast? sign counts (depth + 2) previous (')' :: (t ++ rest)) = none := by
      simp [splitAtLast?, depthAfter, ih hrest]
    simp [splitAtLast?, depthAfter, ihinside hclose]

theorem splitAtLast?_append_none (h : Nested '(' ')' (· ≠ sign) t) (hopen : sign ≠ '(')
    (hrest : ∀ previous, splitAtLast? sign counts 0 previous rest = none) (previous : Option Char) :
    splitAtLast? sign counts 0 previous (t ++ rest) = none := by
  generalize hP : (· ≠ sign) = P at h
  induction h generalizing previous with
  | nil P => exact hrest previous
  | @char P x t ho hc hx _ ih =>
    subst hP
    simp [splitAtLast?, depthAfter, ho, hc, hx, fun x => ih x rfl]
  | @group P inside t hinside _ _ ih =>
    have hend (previous : Option Char) : splitAtLast? sign counts 1 previous (')' :: (t ++ rest)) =
        none := by
      simp [splitAtLast?, depthAfter, fun x => ih x hP]
    simp [splitAtLast?, depthAfter, hinside.splitAtLast?_inside hend, hopen.symm]

theorem splitAtLast?_eq_none (h : Nested '(' ')' (· ≠ sign) t) (hopen : sign ≠ '(')
    (previous : Option Char) : splitAtLast? sign counts 0 previous t = none := by
  have hnone := h.splitAtLast?_append_none hopen
    (fun previous => show splitAtLast? sign counts 0 previous [] = none from rfl)
  simpa using hnone previous

theorem splitAtLast?_eq_some (h : Nested '(' ')' P t) (hu : Nested '(' ')' (· ≠ sign) u)
    (hopen : sign ≠ '(') (hclose : sign ≠ ')') (hcounts : ∀ previous, counts previous = true)
    (previous : Option Char) :
    splitAtLast? sign counts 0 previous (t ++ sign :: u) = some (t, u) := by
  have hsign (previous : Option Char) : splitAtLast? sign counts 0 previous (sign :: u) =
      some ([], u) := by
    simp [splitAtLast?, depthAfter, hopen, hclose, hu.splitAtLast?_eq_none hopen, hcounts]
  simpa using h.splitAtLast?_append_some hsign previous

end Last

end Nested

end Abacus
