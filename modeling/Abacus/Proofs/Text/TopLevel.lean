import Abacus.Proofs.Text.Nested

/-! What a balanced text divides into outside all groups, and what is left of it without its outer
parentheses. Each scan keeps a depth of its own; here the depth of a place is the number of groups
that are open there. -/

namespace Abacus

/-- How many groups more are opened than closed. -/
def nesting (t : Text) : Int := t.count '(' - t.count ')'

/-- A balanced text in which the separator stands within groups only. -/
structure IsPiece (separator : Char) (t : Text) : Prop where
  balanced : isBalanced t = true
  within : ∀ left right, t = left ++ separator :: right → 0 < nesting left

section Nesting

variable {P : Char → Prop} {separator c : Char} {depth : Nat} {t left right : Text}

@[simp] theorem nesting_open : nesting ['('] = 1 := rfl

@[simp] theorem nesting_close : nesting [')'] = -1 := rfl

@[simp] theorem nesting_append (t u : Text) : nesting (t ++ u) = nesting t + nesting u := by
  simp only [nesting, List.count_append]
  omega

theorem nesting_cons (c : Char) (t : Text) : nesting (c :: t) = nesting [c] + nesting t :=
  nesting_append [c] t

theorem nesting_singleton (hopen : c ≠ '(') (hclose : c ≠ ')') : nesting [c] = 0 := by
  simp [nesting, hopen, hclose]

theorem depthAfter_eq (h : c = ')' → 0 < depth) :
    (depthAfter c depth : Int) = depth + nesting [c] := by
  unfold depthAfter
  split
  · next hopen => simp [hopen]
  · next hopen =>
    split
    · next hclose =>
      have := h hclose
      rw [hclose, nesting_close]
      omega
    · next hclose => simp [nesting_singleton hopen hclose]

theorem nesting_prefixes_cons {n : Int} (hn : 0 ≤ n) :
    (∀ left, left <+: c :: t → 0 ≤ n + nesting left) ↔
    ∀ left, left <+: t → 0 ≤ n + nesting [c] + nesting left := by
  constructor
  · intro h left hleft
    have := h _ ((List.prefix_cons_inj c).mpr hleft)
    rwa [nesting_cons, ← Int.add_assoc] at this
  · intro h left hleft
    rcases List.prefix_cons_iff.mp hleft with rfl | ⟨rest, rfl, hrest⟩
    · simpa [nesting] using hn
    · have := h rest hrest
      rwa [nesting_cons, ← Int.add_assoc]

/-- No parenthesis is closed before it is opened, and none is left open. -/
theorem isBalancedFrom_iff (depth : Nat) (t : Text) :
    isBalancedFrom depth t = true ↔ depth + nesting t = 0 ∧ ∀ left,
      left <+: t → 0 ≤ depth + nesting left := by
  induction t generalizing depth with
  | nil => simp [isBalancedFrom, nesting]
  | cons c t ih =>
    rw [nesting_prefixes_cons (Int.natCast_nonneg depth), nesting_cons, ← Int.add_assoc]
    by_cases hclosed : c = ')' ∧ depth = 0
    · obtain ⟨rfl, rfl⟩ := hclosed
      constructor
      · intro h
        simp [isBalancedFrom] at h
      · intro h
        have := h.2 [] List.nil_prefix
        simp [nesting] at this
    · have hdepth : (depthAfter c depth : Int) = depth + nesting [c] :=
        depthAfter_eq fun hc => Nat.pos_of_ne_zero fun hd => hclosed ⟨hc, hd⟩
      have hstep : isBalancedFrom depth (c :: t) = isBalancedFrom (depthAfter c depth) t := by
        have : (c == ')' && depth == 0) = false := by simpa using hclosed
        simp [isBalancedFrom, this]
      rw [hstep, ih, hdepth]

namespace Nested

theorem nesting_eq (h : Nested '(' ')' P t) : nesting t = 0 := by
  simpa using ((isBalancedFrom_iff 0 t).mp h.isBalanced).1

theorem nesting_nonneg (h : Nested '(' ')' P t) (hleft : left <+: t) : 0 ≤ nesting left := by
  simpa using ((isBalancedFrom_iff 0 t).mp h.isBalanced).2 left hleft

theorem nesting_group (h : Nested '(' ')' P t) (rest : Text) :
    nesting ('(' :: (t ++ ')' :: rest)) = nesting rest := by
  rw [nesting_cons, nesting_append, nesting_cons ')', h.nesting_eq, nesting_open, nesting_close]
  omega

theorem nesting_pos (h : Nested '(' ')' (· ≠ separator) t) (hopen : separator ≠ '(')
    (hclose : separator ≠ ')') (ht : t = left ++ separator :: right) : 0 < nesting left := by
  generalize hP : (· ≠ separator) = P at h
  induction h generalizing left with
  | nil P => simp at ht
  | @char P x t ho hc hx _ ih =>
    subst hP
    cases left with
    | nil => exact absurd (List.cons.inj ht).1 hx
    | cons y left =>
      obtain ⟨rfl, htail⟩ := List.cons.inj ht
      have := ih htail rfl
      rw [nesting_cons, nesting_singleton ho hc]
      omega
  | @group P inside t hinside _ _ ih =>
    cases left with
    | nil => exact absurd (List.cons.inj ht).1 hopen.symm
    | cons y left =>
      obtain ⟨rfl, htail⟩ := List.cons.inj ht
      -- The place is behind the group or within it.
      rcases List.append_eq_append_iff.mp htail with ⟨rest, rfl, hrest⟩ | ⟨rest, hrest, -⟩
      · cases rest with
        | nil => exact absurd (List.cons.inj hrest).1 hclose.symm
        | cons z rest =>
          obtain ⟨rfl, hafter⟩ := List.cons.inj hrest
          have := ih hafter hP
          rwa [hinside.nesting_group]
      · have := hinside.nesting_nonneg ⟨rest, hrest.symm⟩
        rw [nesting_cons, nesting_open]
        omega

theorem of_nesting_pos (h : Nested '(' ')' P t)
    (hpos : ∀ left right, t = left ++ separator :: right → 0 < nesting left) :
    Nested '(' ')' (· ≠ separator) t := by
  induction h with
  | nil P => exact nil _
  | @char P x t ho hc hx _ ih =>
    refine char ho hc ?_ (ih fun left right ht => ?_)
    · rintro rfl
      exact absurd (hpos [] t rfl) (by decide)
    · have := hpos (x :: left) right (by rw [ht, List.cons_append])
      rwa [nesting_cons, nesting_singleton ho hc, Int.zero_add] at this
  | @group P inside t hinside _ _ ih =>
    refine group hinside (ih fun left right ht => ?_)
    have := hpos ('(' :: (inside ++ ')' :: left)) right (by simp [ht])
    rwa [hinside.nesting_group] at this

end Nested

theorem isPiece_iff (hopen : separator ≠ '(') (hclose : separator ≠ ')') :
    IsPiece separator t ↔ Nested '(' ')' (· ≠ separator) t :=
  ⟨fun h => (Nested.of_isBalanced h.balanced).of_nesting_pos h.within,
    fun h => ⟨h.isBalanced, fun _ _ => h.nesting_pos hopen hclose⟩⟩

end Nesting

section Splitting

variable {P : Char → Prop} {separator : Char} {t : Text} {pieces : List Text}

theorem piecesAtTop_flatten (separator : Char) (depth : Nat) (t : Text) :
    (piecesAtTop separator depth t).1 ++
      ((piecesAtTop separator depth t).2.map (separator :: ·)).flatten = t := by
  fun_induction piecesAtTop separator depth t <;> simp_all

theorem joinWith_cons (separator piece : Text) (pieces : List Text) :
    joinWith separator (piece :: pieces) = piece ++ (pieces.map (separator ++ ·)).flatten := by
  induction pieces generalizing piece with
  | nil => simp [joinWith]
  | cons next pieces ih => simp [joinWith, ih]

theorem joinWith_splitAtTop (separator : Char) (t : Text) :
    joinWith [separator] (splitAtTop separator t) = t := by
  rw [splitAtTop, joinWith_cons]
  exact piecesAtTop_flatten separator 0 t

theorem Nested.piecesAtTop (h : Nested '(' ')' P t) (hopen : separator ≠ '(') :
    Nested '(' ')' (· ≠ separator) (piecesAtTop separator 0 t).1 ∧
      ∀ piece ∈ (piecesAtTop separator 0 t).2, Nested '(' ')' (· ≠ separator) piece := by
  induction h with
  | nil P => exact ⟨nil _, by simp [Abacus.piecesAtTop]⟩
  | @char P x t ho hc _ _ ih =>
    by_cases hx : x = separator
    · simpa [Abacus.piecesAtTop, hx] using ⟨nil _, ih⟩
    · simpa [Abacus.piecesAtTop, Prod.map, depthAfter, hx, ho, hc] using ⟨char ho hc hx ih.1, ih.2⟩
  | @group P inside t hinside _ _ ih =>
    simpa [Abacus.piecesAtTop, Prod.map, depthAfter, hinside.piecesAtTop_inside, hopen.symm] using
      ⟨group hinside ih.1, ih.2⟩

theorem Nested.of_mem_splitAtTop (h : Nested '(' ')' P t) (hopen : separator ≠ '(') {piece : Text}
    (hpiece : piece ∈ splitAtTop separator t) : Nested '(' ')' (· ≠ separator) piece := by
  rcases List.mem_cons.mp hpiece with rfl | hrest
  · exact (h.piecesAtTop hopen).1
  · exact (h.piecesAtTop hopen).2 piece hrest

/-- A text divides in one way only. -/
theorem splitAtTop_joinWith (hopen : separator ≠ '(') (hne : pieces ≠ [])
    (h : ∀ piece ∈ pieces, Nested '(' ')' (· ≠ separator) piece) :
    splitAtTop separator (joinWith [separator] pieces) = pieces := by
  induction pieces with
  | nil => exact absurd rfl hne
  | cons piece pieces ih =>
    obtain ⟨hpiece, hrest⟩ := List.forall_mem_cons.mp h
    cases pieces with
    | nil => exact hpiece.splitAtTop_eq_singleton hopen
    | cons next pieces =>
      have hjoined : joinWith [separator] (piece :: next :: pieces) =
          piece ++ separator :: joinWith [separator] (next :: pieces) := by simp [joinWith]
      rw [hjoined, hpiece.splitAtTop_cons hopen, ih (by simp) hrest]

end Splitting

section OuterGroups

variable {t : Text}

theorem Nested.withoutOuterGroups (h : Nested '(' ')' (fun _ => True) t) :
    Nested '(' ')' (fun _ => True) (withoutOuterGroups t) := by
  fun_induction Abacus.withoutOuterGroups t with
  | case1 => exact h
  | case2 rest d inside hgroup ih =>
    cases h with
    | char hopen => exact absurd rfl hopen
    | group hinside ht =>
      rw [hinside.splitGroup_close] at hgroup
      obtain ⟨rfl, rfl⟩ : _ = d :: inside ∧ _ = [] := by simpa using hgroup
      exact ih hinside
  | case3 => exact h
  | case4 => exact h

theorem exists_outerGroups (t : Text) :
    ∃ n, t = List.replicate n '(' ++ (withoutOuterGroups t ++ List.replicate n ')') := by
  fun_induction withoutOuterGroups t with
  | case1 => exact ⟨0, rfl⟩
  | case2 rest d inside hgroup ih =>
    obtain ⟨n, hn⟩ := ih
    generalize withoutOuterGroups (d :: inside) = core at hn ⊢
    refine ⟨n + 1, ?_⟩
    rw [splitGroup_eq_some hgroup, hn, List.replicate_succ, List.replicate_succ']
    simp
  | case3 => exact ⟨0, by simp⟩
  | case4 => exact ⟨0, by simp⟩

theorem withoutOuterGroups_ne_nil (h : t ≠ []) : withoutOuterGroups t ≠ [] := by
  fun_induction withoutOuterGroups t with
  | case1 => exact h
  | case2 rest d inside hgroup ih => exact ih (List.cons_ne_nil d inside)
  | case3 => exact h
  | case4 => exact h

theorem withoutOuterGroups_withoutOuterGroups (t : Text) :
    withoutOuterGroups (withoutOuterGroups t) = withoutOuterGroups t := by
  fun_induction withoutOuterGroups t with
  | case1 => rw [withoutOuterGroups]
  | case2 rest d inside hgroup ih => exact ih
  | case3 rest hgroup =>
    rw [withoutOuterGroups, if_pos rfl]
    split
    · next d inside hinside => exact absurd hinside (hgroup d inside)
    · rfl
  | case4 c rest hc => rw [withoutOuterGroups, if_neg hc]

example : withoutOuterGroups "(((1)+(2)))".toList = "(1)+(2)".toList := by cbv

end OuterGroups

/-- Put together again, the pieces are the text. Each of them is balanced and holds the separator
within groups only, and no other pieces of the text do so. -/
structure SplitsAtTop (separator : Char) (t : Text) : Prop where
  joined : joinWith [separator] (splitAtTop separator t) = t
  isPiece : ∀ piece ∈ splitAtTop separator t, IsPiece separator piece
  unique : ∀ pieces, pieces ≠ [] → joinWith [separator] pieces = t →
    (∀ piece ∈ pieces, IsPiece separator piece) → pieces = splitAtTop separator t

/-- As many parentheses are taken off in front as behind. What is left is balanced and not empty,
and nothing more can be taken off. -/
structure Uncovered (t : Text) : Prop where
  balanced : isBalanced (withoutOuterGroups t) = true
  covered : ∃ n, t = List.replicate n '(' ++ (withoutOuterGroups t ++ List.replicate n ')')
  nonempty : t ≠ [] → withoutOuterGroups t ≠ []
  settled : withoutOuterGroups (withoutOuterGroups t) = withoutOuterGroups t

/-- What a balanced text divides into at an ASCII separator, and what is left of it without its
outer parentheses. -/
theorem topLevel_of_isBalanced {separator : Char} {t : Text} (h : isBalanced t = true)
    (hopen : separator ≠ '(') (hclose : separator ≠ ')') :
    SplitsAtTop separator t ∧ Uncovered t := by
  have hnested : Nested '(' ')' (fun _ => True) t := .of_isBalanced h
  constructor
  · refine ⟨joinWith_splitAtTop separator t, fun piece hpiece => ?_,
      fun pieces hne hjoined hpieces => ?_⟩
    · exact (isPiece_iff hopen hclose).mpr (hnested.of_mem_splitAtTop hopen hpiece)
    · rw [← hjoined, splitAtTop_joinWith hopen hne fun piece hpiece =>
        (isPiece_iff hopen hclose).mp (hpieces piece hpiece)]
  · exact ⟨hnested.withoutOuterGroups.isBalanced, exists_outerGroups t, withoutOuterGroups_ne_nil,
      withoutOuterGroups_withoutOuterGroups t⟩

/-- The first and the last parenthesis do not belong together, and the third piece is empty. -/
theorem topLevel_of_isBalanced_arguments :
    let t := "((x,2)),log(8,(2)),,(3)".toList
    isBalanced t = true ∧ ',' ≠ '(' ∧ ',' ≠ ')' ∧
      splitAtTop ',' t = ["((x,2))".toList, "log(8,(2))".toList, [], "(3)".toList] ∧
      withoutOuterGroups t = t ∧
      SplitsAtTop ',' t ∧ Uncovered t := by
  intro t
  exact ⟨by decide, by decide, by decide, by decide, by with_unfolding_all rfl,
    topLevel_of_isBalanced (t := t) (by decide) (by decide) (by decide)⟩

end Abacus
