import Abacus.Proofs.Canonical.EmptyCalls
import Abacus.Proofs.Canonical.MinusRuns
import Abacus.Proofs.Naming.Words

/-! Groups without operands. Settling the signs of a text and taking out its empty groups keeps the
words that the text has without such groups, whether or not a call may be one of them. -/

namespace Abacus

def isArithmetic (c : Char) : Bool := arithmeticSigns.contains c

/-- The text so far, last character first, with one character more. A group that holds nothing but
signs goes as it closes. -/
def keepFilled (before : Text) (c : Char) : Text :=
  if c = ')' then
    match before.dropWhile isArithmetic with
    | '(' :: outer => outer
    | _ => ')' :: before
  else c :: before

/-- The text without the groups that hold nothing but signs and such groups. -/
def withoutHollowGroups (t : Text) : Text := (t.foldl keepFilled []).reverse

/-- As before, but a group that is the argument list of a name that is called stays. -/
def keepCalled (called : Text → Bool) (before : Text) (c : Char) : Text :=
  if c = ')' then
    match before.dropWhile isArithmetic with
    | '(' :: outer => if called (nameBefore outer) then ')' :: before else outer
    | _ => ')' :: before
  else c :: before

/-- The text without the groups that hold nothing but signs and such groups, where no call is such a
group. -/
def withoutEmptyGroups (called : Text → Bool) (t : Text) : Text :=
  (t.foldl (keepCalled called) []).reverse

section Stack

variable {called : Text → Bool} {before outer t : Text} {c : Char}

theorem keepCalled_of_ne (hc : c ≠ ')') (before : Text) :
    keepCalled called before c = c :: before := if_neg hc

theorem keepCalled_hollow (h : before.dropWhile isArithmetic = '(' :: outer)
    (hcalled : called (nameBefore outer) = false) : keepCalled called before ')' = outer := by
  simp [keepCalled, h, hcalled]

theorem keepCalled_filled
    (h : ∀ outer, before.dropWhile isArithmetic = '(' :: outer → called (nameBefore outer) = true) :
    keepCalled called before ')' = ')' :: before := by
  rw [keepCalled, if_pos rfl]
  split
  · next hopen => rw [if_pos (h _ hopen)]
  · rfl

theorem withoutEmptyGroups_false (t : Text) :
    withoutEmptyGroups (fun _ => false) t = withoutHollowGroups t := by
  have hsame : keepCalled (fun _ => false) = keepFilled := by
    funext before c
    rw [keepCalled, keepFilled]
    split
    · split <;> rfl
    · rfl
  rw [withoutEmptyGroups, withoutHollowGroups, hsame]

theorem withoutEmptyGroups_true (t : Text) : withoutEmptyGroups (fun _ => true) t = t := by
  have hkeep : keepCalled (fun _ => true) = fun before c => c :: before := by
    funext before c
    by_cases hc : c = ')'
    · subst hc
      exact keepCalled_filled fun _ _ => rfl
    · exact keepCalled_of_ne hc before
  rw [withoutEmptyGroups, hkeep, List.foldl_flip_cons_eq_append', List.append_nil,
    List.reverse_reverse]

theorem withoutEmptyGroups_append {m : Text} (hm : ')' ∉ m) (left right : Text) :
    withoutEmptyGroups called (left ++ (m ++ right)) =
    (right.foldl (keepCalled called) (m.reverse ++ left.foldl (keepCalled called) [])).reverse := by
  have hpush (before : Text) : m.foldl (keepCalled called) before = m.reverse ++ before := by
    induction m generalizing before with
    | nil => rfl
    | cons c m ih =>
      rw [List.mem_cons, not_or] at hm
      rw [List.foldl_cons, keepCalled_of_ne (Ne.symm hm.1), ih hm.2, List.reverse_cons,
        List.append_assoc, List.singleton_append]
  rw [withoutEmptyGroups, List.foldl_append, List.foldl_append, hpush]

theorem withoutEmptyGroups_empty {left : Text}
    (h : called (nameBefore (left.foldl (keepCalled called) [])) = false) (right : Text) :
    withoutEmptyGroups called (left ++ '(' :: ')' :: right) =
      withoutEmptyGroups called (left ++ right) := by
  simp only [withoutEmptyGroups, List.foldl_append, List.foldl_cons]
  rw [keepCalled_of_ne (c := '(') (by decide),
    keepCalled_hollow (List.dropWhile_cons_of_neg (by decide)) h]

/-- Before the parenthesis that closes a group stands no sign. -/
def Finished (a b : Char) : Prop := b = ')' → isArithmetic a = false

theorem withoutEmptyGroups_eq_self (h : List.IsChain Finished t)
    (hempty : ∀ left right, t = left ++ '(' :: ')' :: right →
      called (nameBefore left.reverse) = true) :
    withoutEmptyGroups called t = t := by
  suffices hall : ∀ before rest, t = before.reverse ++ rest →
    (rest.foldl (keepCalled called) before).reverse = t from hall [] t rfl
  intro before rest ht
  induction rest generalizing before with
  | nil => rw [ht, List.append_nil, List.foldl_nil]
  | cons c rest ih =>
    have hkeep : keepCalled called before c = c :: before := by
      by_cases hc : c = ')'
      · subst hc
        refine keepCalled_filled fun outer hopen => ?_
        cases before with
        | nil => cases hopen
        | cons a before =>
          have hlast : t = before.reverse ++ a :: ')' :: rest := by simpa using ht
          rw [hlast, List.isChain_append_cons_cons] at h
          have hsign := h.2.1 rfl
          rw [List.dropWhile_cons_of_neg (by simp [hsign])] at hopen
          obtain ⟨rfl, rfl⟩ := List.cons.inj hopen
          simpa using hempty before.reverse rest hlast
      · exact keepCalled_of_ne hc before
    rw [List.foldl_cons, hkeep]
    exact ih (c :: before) (by simpa using ht)

end Stack

/-- Two texts so far that no text to come can tell apart. -/
structure Interchangeable (f : Text → List Text) (s s' : Text) : Prop where
  core (outer : Text) :
    s.dropWhile isArithmetic = '(' :: outer ↔ s'.dropWhile isArithmetic = '(' :: outer
  name (above : Text) : nameBefore (above ++ s) = nameBefore (above ++ s')
  words (right : Text) : f (s.reverse ++ right) = f (s'.reverse ++ right)

section Words

variable {called : Text → Bool} {f : Text → List Text} {s s' : Text}

/-- One character more leaves the difference where it is or takes it away. -/
theorem Interchangeable.step (h : Interchangeable f s s') (above : Text) (c : Char) :
    keepCalled called (above ++ s) c = keepCalled called (above ++ s') c ∨
      ∃ above', keepCalled called (above ++ s) c = above' ++ s ∧
        keepCalled called (above ++ s') c = above' ++ s' := by
  by_cases hc : c = ')'
  · subst hc
    rcases hdrop : above.dropWhile isArithmetic with _ | ⟨d, inner⟩
    · have hboth (s : Text) : (above ++ s).dropWhile isArithmetic = s.dropWhile isArithmetic := by
        rw [List.dropWhile_append, hdrop]
        rfl
      by_cases hopen : ∃ outer, s.dropWhile isArithmetic = '(' :: outer ∧
        called (nameBefore outer) = false
      · obtain ⟨outer, hopen, hcalled⟩ := hopen
        left
        rw [keepCalled_hollow ((hboth s).trans hopen) hcalled,
          keepCalled_hollow ((hboth s').trans ((h.core outer).mp hopen)) hcalled]
      · have hcalled {outer : Text} (he : s.dropWhile isArithmetic = '(' :: outer) :
            called (nameBefore outer) = true := by
          by_contra hnot
          exact hopen ⟨outer, he, by simpa using hnot⟩
        exact .inr
          ⟨')' :: above, keepCalled_filled fun outer he => hcalled ((hboth s).symm.trans he),
            keepCalled_filled fun outer he =>
              hcalled ((h.core outer).mpr ((hboth s').symm.trans he))⟩
    · have hboth (s : Text) : (above ++ s).dropWhile isArithmetic = d :: (inner ++ s) := by
        rw [List.dropWhile_append, hdrop]
        rfl
      by_cases hopen : d = '(' ∧ called (nameBefore (inner ++ s)) = false
      · obtain ⟨rfl, hcalled⟩ := hopen
        exact .inr ⟨inner, keepCalled_hollow (hboth s) hcalled,
          keepCalled_hollow (hboth s') (h.name inner ▸ hcalled)⟩
      · have hfilled (s outer : Text) (hname : nameBefore (inner ++ s) = nameBefore (inner ++ s'))
            (he : (above ++ s).dropWhile isArithmetic = '(' :: outer) : called (nameBefore outer) =
              true := by
          obtain ⟨rfl, rfl⟩ := List.cons.inj ((hboth s).symm.trans he)
          by_contra hnot
          exact hopen ⟨rfl, by rw [h.name inner, ← hname]; simpa using hnot⟩
        exact .inr ⟨')' :: above, keepCalled_filled fun outer he => hfilled s outer (h.name inner)
          he, keepCalled_filled fun outer he => hfilled s' outer rfl he⟩
  · exact .inr ⟨c :: above, keepCalled_of_ne hc _, keepCalled_of_ne hc _⟩

theorem Interchangeable.foldl (h : Interchangeable f s s') (above rest : Text) :
    f (rest.foldl (keepCalled called) (above ++ s)).reverse =
      f (rest.foldl (keepCalled called) (above ++ s')).reverse := by
  induction rest generalizing above with
  | nil => simpa using h.words above.reverse
  | cons c rest ih =>
    rw [List.foldl_cons, List.foldl_cons]
    rcases h.step above c with hsame | ⟨above', hs, hs'⟩
    · rw [hsame]
    · rw [hs, hs', ih above']

end Words

section Settling

variable {called : Text → Bool} {f : Text → List Text} {v : Vocabulary} {left right t u w : Text}

theorem exists_of_dropEmptyGroup? {before : Text} (h : dropEmptyGroup? v before t = some w) :
    ∃ left right, t = left ++ '(' :: ')' :: right ∧ w = left ++ right ∧
      v.isCallable (nameBefore (left.reverse ++ before)) = false ∧
      ∀ first rest, left = first ++ '(' :: ')' :: rest →
        v.isCallable (nameBefore (first.reverse ++ before)) = true := by
  fun_induction dropEmptyGroup? v before t generalizing w with
  | case1 before rest hcall ih =>
    obtain ⟨x, hx, rfl⟩ := Option.map_eq_some_iff.mp h
    obtain ⟨left, right, rfl, rfl, hnot, hcalled⟩ := ih hx
    refine ⟨'(' :: ')' :: left, right, rfl, rfl, by simpa using hnot, fun first rest hleft => ?_⟩
    cases first with
    | nil => exact hcall
    | cons c first =>
      obtain ⟨rfl, htail⟩ := List.cons.inj hleft
      cases first with
      | nil => exact absurd (List.cons.inj htail).1 (by decide)
      | cons d first =>
        obtain ⟨rfl, hinner⟩ := List.cons.inj htail
        simpa using hcalled first rest hinner
  | case2 before rest hcall =>
    obtain rfl : rest = w := by simpa using h
    exact ⟨[], rest, rfl, rfl, by simpa using hcall, by simp⟩
  | case3 before c rest hopen ih =>
    obtain ⟨x, hx, rfl⟩ := Option.map_eq_some_iff.mp h
    obtain ⟨left, right, rfl, rfl, hnot, hcalled⟩ := ih hx
    refine ⟨c :: left, right, rfl, rfl, by simpa using hnot, fun first rest hleft => ?_⟩
    cases first with
    | nil =>
      obtain ⟨rfl, rfl⟩ := List.cons.inj hleft
      exact absurd rfl (hopen _ rfl)
    | cons d first =>
      obtain ⟨rfl, hinner⟩ := List.cons.inj hleft
      simpa using hcalled first rest hinner
  | case4 => cases h

/-- The search takes out what is no argument list, as `withoutEmptyGroups` does. -/
theorem withoutEmptyGroups_dropEmptyGroup? (hu : List.IsChain Finished u)
    (h : dropEmptyGroup? v [] u = some w) :
    withoutEmptyGroups v.isCallable w = withoutEmptyGroups v.isCallable u := by
  obtain ⟨left, right, rfl, rfl, hnot, hcalled⟩ := exists_of_dropEmptyGroup? h
  rw [List.append_nil] at hnot
  have hsame : withoutEmptyGroups v.isCallable left = left :=
    withoutEmptyGroups_eq_self hu.left_of_append fun first rest hleft => by
    simpa using hcalled first rest hleft
  refine (withoutEmptyGroups_empty ?_ right).symm
  rw [← List.reverse_reverse (List.foldl _ _ _), ← withoutEmptyGroups, hsame, hnot]

section

variable (hf : ReadsParts f)
include hf

theorem ReadsParts.settling {e : Char × Char × Text} (he : e ∈ settlingPairs ∨ e ∈ leadingPairs)
    (left right : Text) : f (left ++ e.1 :: e.2.1 :: right) = f (left ++ (e.2.2 ++ right)) := by
  obtain ⟨ha, ⟨hb, c, hr, hc⟩ | ⟨hb, hr⟩⟩ := settling_cases he
  · rw [hr, List.singleton_append, hf.split ha, hf.split hc, hf.cons hb]
  · rw [hr, hb, List.cons_append, List.cons_append, List.singleton_append, hf.split ha, hf.split ha,
      hf.digit (c := '0') (by decide)]

/-- Whether a group is hollow does not depend on how its signs are settled. -/
theorem ReadsParts.interchangeable {e : Char × Char × Text}
    (he : e ∈ settlingPairs ∨ e ∈ leadingPairs) (before : Text) :
    Interchangeable f (e.2.1 :: e.1 :: before) (e.2.2.reverse ++ before) where
  core outer := by
    simp only [settlingPairs, leadingPairs, List.mem_cons, List.not_mem_nil, or_false] at he
    rcases he with (rfl | rfl | rfl | rfl | rfl | rfl | rfl | rfl | rfl) | rfl | rfl | rfl <;>
      simp [isArithmetic, arithmeticSigns]
  name above := by
    have hstop : ∀ e ∈ settlingPairs ++ leadingPairs, isWordCharacter e.2.1 = false ∧
        e.2.2.reverse.head?.map isWordCharacter = some false := by decide
    obtain ⟨hsecond, hlast⟩ := hstop e (List.mem_append.mpr he)
    obtain ⟨c, hlast, hc⟩ := Option.map_eq_some_iff.mp hlast
    obtain ⟨rest, hrest⟩ := List.head?_eq_some_iff.mp hlast
    rw [nameBefore_append_of_stop (by simpa using hsecond),
      nameBefore_append_of_stop (by simpa [hrest] using hc)]
  words right := by simpa using hf.settling he before.reverse right

/-- A text settles to one with the same words besides its empty groups. -/
theorem ReadsParts.settles (hs : Settles t u) :
    f (withoutEmptyGroups called u) = f (withoutEmptyGroups called t) := by
  have hclose : ∀ e ∈ settlingPairs ++ leadingPairs, ')' ∉ [e.1, e.2.1] ∧ ')' ∉ e.2.2 := by decide
  have hkept {pairs : List (Char × Char × Text)} (hpairs : ∀ e ∈ pairs, e ∈ settlingPairs ∨
      e ∈ leadingPairs) : KeptBy pairs fun u => f (withoutEmptyGroups called u) =
        f (withoutEmptyGroups called t) := by
    intro e he left right hwords
    obtain ⟨hpair, hr⟩ := hclose e (List.mem_append.mpr (hpairs e he))
    rw [← hwords, withoutEmptyGroups_append hr, show left ++ e.1 :: e.2.1 :: right =
      left ++ ([e.1, e.2.1] ++ right) from rfl, withoutEmptyGroups_append hpair]
    exact ((hf.interchangeable (hpairs e he) _).foldl [] right).symm
  have hplus : Interchangeable f ['+'] [] :=
    ⟨fun outer => by simp [isArithmetic, arithmeticSigns],
      fun above => by rw [nameBefore_append_of_stop (by simp; decide), List.append_nil],
      fun right => hf.cons (by decide) right⟩
  rw [hs.result]
  refine dropPlus_induction (hkept fun e he => .inr he) (fun w hw => ?_)
    (completePoints_induction (hkept fun e he => .inl he) (fun w hw => ?_)
      (collapseSigns_induction (hkept fun e he => .inl he) rfl))
  · exact (hplus.foldl [] w).symm.trans hw
  · have hlast : withoutEmptyGroups called (w ++ ['.']) = withoutEmptyGroups called w ++ ['.'] := by
      rw [withoutEmptyGroups, List.foldl_append, List.foldl_cons, List.foldl_nil,
        keepCalled_of_ne (by decide), List.reverse_cons]
      rfl
    rw [← hw, hlast, hf.last]

theorem ReadsParts.settled (hs : Settles t u) : f u = f t := by
  have hwords : f (withoutEmptyGroups (fun _ => true) u) =
      f (withoutEmptyGroups (fun _ => true) t) := hf.settles hs
  rwa [withoutEmptyGroups_true, withoutEmptyGroups_true] at hwords

end

section

variable (hf : ReadsWords f)
include hf

theorem ReadsWords.keepCalled {c : Char} (h : List.IsChain Closed (c :: right)) (before : Text) :
    f ((keepCalled called before c).reverse ++ right) = f (before.reverse ++ c :: right) := by
  have hpush : f ((c :: before).reverse ++ right) = f (before.reverse ++ c :: right) := by simp
  by_cases hc : c = ')'
  · subst hc
    by_cases hopen : ∃ outer, before.dropWhile isArithmetic = '(' :: outer ∧
      called (nameBefore outer) = false
    · obtain ⟨outer, hopen, hcalled⟩ := hopen
      have hbefore :
          before.reverse = outer.reverse ++ '(' :: (before.takeWhile isArithmetic).reverse := by
        conv => lhs; rw [← List.takeWhile_append_dropWhile (p := isArithmetic) (l := before), hopen]
        simp
      have hsigns : f (before.takeWhile isArithmetic).reverse = [] := hf.eq_nil fun c hc => by
        have hsign := List.mem_takeWhile_imp (List.mem_reverse.mp hc)
        simp only [isArithmetic, arithmeticSigns, List.contains_iff_mem, List.mem_cons,
          List.not_mem_nil, or_false] at hsign
        rcases hsign with rfl | rfl | rfl | rfl <;> decide
      have hhead : ∀ c ∈ right.head?, isOperandCharacter c = false := by
        intro c hc
        obtain ⟨after, rfl⟩ := List.head?_eq_some_iff.mp hc
        exact (h.rel (.inl rfl)).1
      rw [keepCalled_hollow hopen hcalled, hf.append_of_first _ hhead, hbefore,
        hf.split (by decide), hf.split (by decide), hsigns, List.append_nil]
    · rw [keepCalled_filled fun outer he => by_contra fun hnot =>
        hopen ⟨outer, he, by simpa using hnot⟩, hpush]
  · rw [keepCalled_of_ne hc, hpush]

theorem ReadsWords.closed (h : List.IsChain Closed t) : f (withoutEmptyGroups called t) = f t := by
  suffices hall : ∀ before rest, List.IsChain Closed rest →
    f (rest.foldl (Abacus.keepCalled called) before).reverse =
      f (before.reverse ++ rest) from hall [] t h
  intro before rest hrest
  induction rest generalizing before with
  | nil => rw [List.foldl_nil, List.append_nil]
  | cons c rest ih => rw [List.foldl_cons, ih _ hrest.tail, hf.keepCalled hrest]

end

end Settling

end Abacus
