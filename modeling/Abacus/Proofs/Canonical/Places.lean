import Abacus.Proofs.Canonical.Forms

/-! Where a character of a text stands in its layout: in which level, and in which item of it. -/

namespace Abacus

/-- A level of a layout, with the text before it and the text after it. -/
inductive LevelAt : List Item → Text → List Item → Text → Prop
  | whole (items : List Item) : LevelAt items [] items []
  | group {first inner last level : List Item} {before after : Text}
    (h : LevelAt inner before level after) :
    LevelAt (first ++ .group inner :: last) (textOf first ++ '(' :: before) level
      (after ++ ')' :: textOf last)
  | call {first inner last level : List Item} {name before after : Text}
    (h : LevelAt inner before level after) :
    LevelAt (first ++ .call name inner :: last) (textOf first ++ (name ++ '(' :: before)) level
      (after ++ ')' :: textOf last)

/-- A character of an item that is not one of the level inside, with the text before and after
it. -/
inductive Item.Shows : Item → Text → Char → Text → Prop
  | sign (c : Char) : Shows (.sign c) [] c []
  | run (l : Text) (c : Char) (r : Text) : Shows (.run (l ++ c :: r)) l c r
  | opens (inner : List Item) : Shows (.group inner) [] '(' (textOf inner ++ [')'])
  | closes (inner : List Item) : Shows (.group inner) ('(' :: textOf inner) ')' []
  | name (l : Text) (c : Char) (r : Text) (inner : List Item) :
    Shows (.call (l ++ c :: r) inner) l c (r ++ '(' :: (textOf inner ++ [')']))
  | opensCall (name : Text) (inner : List Item) :
    Shows (.call name inner) name '(' (textOf inner ++ [')'])
  | closesCall (name : Text) (inner : List Item) :
    Shows (.call name inner) (name ++ '(' :: textOf inner) ')' []

/-- A character is one that an item of some level shows. -/
inductive Place (items : List Item) : Text → Char → Text → Prop
  | mk {before after l r : Text} {first last : List Item} {x : Item} {c : Char}
    (level : LevelAt items before (first ++ x :: last) after) (shows : x.Shows l c r) :
    Place items (before ++ (textOf first ++ l)) c (r ++ (textOf last ++ after))

section

variable {items level inner rest : List Item} {before after left right name : Text} {c : Char}
  {x : Item}

theorem LevelAt.cons (x : Item) (h : LevelAt items before level after) :
    (before = [] ∧ after = [] ∧ level = items) ∨
      LevelAt (x :: items) (x.text ++ before) level after := by
  cases h with
  | whole => exact .inl ⟨rfl, rfl, rfl⟩
  | @group first inner last _ before after h =>
    have hcons : LevelAt (x :: first ++ .group inner :: last) _ _ _ := .group h
    exact .inr (by simpa [textOf] using hcons)
  | @call first inner last _ name before after h =>
    have hcons : LevelAt (x :: first ++ .call name inner :: last) _ _ _ := .call h
    exact .inr (by simpa [textOf] using hcons)

theorem Place.cons (x : Item) (h : Place items left c right) :
    Place (x :: items) (x.text ++ left) c right := by
  cases h with
  | @mk before after l r first last y _ hlevel hshows =>
    rcases hlevel.cons x with ⟨rfl, rfl, rfl⟩ | hcons
    · have hwhole : LevelAt (x :: first ++ y :: last) [] _ [] := .whole _
      have hplace := Place.mk hwhole hshows
      simpa [textOf] using hplace
    · have hplace := Place.mk hcons hshows
      simpa using hplace

theorem Place.group (h : Place inner left c right) (rest : List Item) :
    Place (.group inner :: rest) ('(' :: left) c (right ++ ')' :: textOf rest) := by
  cases h with
  | mk hlevel hshows =>
    have hat : LevelAt ([] ++ .group inner :: rest) _ _ _ := .group hlevel
    have hgroup := Place.mk hat hshows
    simpa using hgroup

theorem Place.call (h : Place inner left c right) (name : Text) (rest : List Item) :
    Place (.call name inner :: rest) (name ++ '(' :: left) c (right ++ ')' :: textOf rest) := by
  cases h with
  | mk hlevel hshows =>
    have hat : LevelAt ([] ++ .call name inner :: rest) _ _ _ := .call hlevel
    have hcall := Place.mk hat hshows
    simpa using hcall

theorem Place.here (h : x.Shows left c right) (rest : List Item) :
    Place (x :: rest) left c (right ++ textOf rest) := by
  have hwhole : LevelAt ([] ++ x :: rest) [] _ [] := .whole _
  have hplace := Place.mk hwhole h
  simpa using hplace

theorem split_close (h : textOf inner ++ [')'] = left ++ c :: right) :
    (left = textOf inner ∧ c = ')' ∧ right = []) ∨
      ∃ r, right = r ++ [')'] ∧ textOf inner = left ++ c :: r := by
  rcases List.eq_nil_or_concat' right with rfl | ⟨r, d, rfl⟩
  · obtain ⟨hl, hc⟩ := List.append_inj' h rfl
    exact .inl ⟨hl.symm, (List.cons.inj hc).1.symm, rfl⟩
  · obtain ⟨hl, hc⟩ :=
      List.append_inj' (show textOf inner ++ [')'] = (left ++ c :: r) ++ [d] by simpa using h) rfl
    obtain rfl := (List.cons.inj hc).1
    exact .inr ⟨r, rfl, hl⟩

theorem split_group_close (h : '(' :: (textOf inner ++ [')']) = left ++ c :: right) :
    (left = [] ∧ c = '(' ∧ right = textOf inner ++ [')']) ∨
      (left = '(' :: textOf inner ∧ c = ')' ∧ right = []) ∨
      ∃ l r, left = '(' :: l ∧ right = r ++ [')'] ∧ textOf inner = l ++ c :: r := by
  cases left with
  | nil =>
    obtain ⟨rfl, rfl⟩ := List.cons.inj h
    exact .inl ⟨rfl, rfl, rfl⟩
  | cons d l =>
    obtain ⟨rfl, htail⟩ := List.cons.inj h
    rcases split_close htail with ⟨rfl, rfl, rfl⟩ | ⟨r, rfl, hinner⟩
    · exact .inr (.inl ⟨rfl, rfl, rfl⟩)
    · exact .inr (.inr ⟨l, r, rfl, rfl, hinner⟩)

theorem Item.shows_or (h : x.text = left ++ c :: right) : x.Shows left c right ∨
    (∃ inner l r, x = .group inner ∧ left = '(' :: l ∧ right = r ++ [')'] ∧
      textOf inner = l ++ c :: r) ∨
    ∃ name inner l r, x = .call name inner ∧ left = name ++ '(' :: l ∧ right = r ++ [')'] ∧
      textOf inner = l ++ c :: r := by
  cases x with
  | sign d =>
    simp only [Item.text] at h
    cases left with
    | nil =>
      obtain ⟨rfl, rfl⟩ := List.cons.inj h
      exact .inl (.sign _)
    | cons _ _ => simp at h
  | run t =>
    simp only [Item.text] at h
    subst h
    exact .inl (.run left c right)
  | group inner =>
    simp only [Item.text] at h
    rcases split_group_close h with ⟨rfl, rfl, rfl⟩ | ⟨rfl, rfl, rfl⟩ | ⟨l, r, rfl, rfl, hinner⟩
    · exact .inl (.opens inner)
    · exact .inl (.closes inner)
    · exact .inr (.inl ⟨inner, l, r, rfl, rfl, rfl, hinner⟩)
  | call name inner =>
    simp only [Item.text] at h
    rcases List.append_eq_append_iff.mp h with ⟨left, rfl, hgroup⟩ | ⟨r, rfl, hrest⟩
    · rcases split_group_close hgroup with ⟨rfl, rfl, rfl⟩ | ⟨rfl, rfl, rfl⟩
        | ⟨l, r, rfl, rfl, hinner⟩
      · exact .inl (by simpa using Item.Shows.opensCall name inner)
      · exact .inl (.closesCall name inner)
      · exact .inr (.inr ⟨name, inner, l, r, rfl, rfl, rfl, hinner⟩)
    · cases r with
      | nil =>
        obtain ⟨rfl, rfl⟩ := List.cons.inj hrest
        exact .inl (by simpa using Item.Shows.opensCall left inner)
      | cons d r =>
        obtain ⟨rfl, rfl⟩ := List.cons.inj hrest
        exact .inl (.name left _ r inner)

theorem place_cons {c : Char}
    (hinner : ∀ inner, (x = .group inner ∨ ∃ name, x = .call name inner) →
      ∀ l r, textOf inner = l ++ c :: r → Place inner l c r)
    (hrest : ∀ l r, textOf rest = l ++ c :: r → Place rest l c r)
    (htext : textOf (x :: rest) = left ++ c :: right) :
    Place (x :: rest) left c right := by
  rw [textOf] at htext
  rcases List.append_eq_append_iff.mp htext with ⟨l, rfl, hl⟩ | ⟨r, hx, hr⟩
  · exact (hrest l right hl).cons x
  · cases r with
    | nil =>
      have hplace := (hrest [] right (by simpa using hr.symm)).cons x
      rw [hx] at hplace
      simpa using hplace
    | cons d r =>
      obtain ⟨rfl, rfl⟩ := List.cons.inj hr
      rcases Item.shows_or hx with hshows | ⟨inner, l, r, rfl, rfl, rfl, hin⟩
        | ⟨name, inner, l, r, rfl, rfl, rfl, hin⟩
      · exact .here hshows rest
      · simpa using (hinner inner (.inl rfl) l r hin).group rest
      · simpa using (hinner inner (.inr ⟨name, rfl⟩) l r hin).call name rest

/-- Every character of a text has its place in the layout. -/
theorem Laid.place {r : Rules} {p q : Char} (h : Laid r p items q)
    (htext : textOf items = left ++ c :: right) : Place items left c right := by
  induction h generalizing left right with
  | nil => simp at htext
  | sign _ _ _ ih => exact place_cons (fun _ h => by simp at h) (fun _ _ => ih) htext
  | run _ _ _ ih => exact place_cons (fun _ h => by simp at h) (fun _ _ => ih) htext
  | group _ _ _ _ _ ihinner ih =>
    refine place_cons (fun inner h l r hin => ?_) (fun _ _ => ih) htext
    obtain rfl := by simpa using h
    exact ihinner hin
  | call _ _ _ _ _ ihinner ih =>
    refine place_cons (fun inner h l r hin => ?_) (fun _ _ => ih) htext
    obtain ⟨-, rfl⟩ := by simpa using h
    exact ihinner hin

end

/-- The text ends where an operand is missing. -/
def AtOperand (t : Text) : Prop := ∀ c ∈ t.getLast?, c ∈ unaryPlaces

/-- What stands around a level: nothing, the parentheses of a group, or those of a call. -/
inductive Held (v : Vocabulary) (level : List Item) : Text → Text → Prop
  | whole (hcommas : commas level = 0) : Held v level [] []
  | group {left right : Text} (hleft : AtOperand left) (hcommas : commas level = 0) :
    Held v level (left ++ ['(']) (')' :: right)
  | call {left right name : Text} {arity : Arity} (hleft : AtOperand left) (hname : IsCalled v name)
    (harity : v.arity? name = some arity) (hcount : arity.admits (argumentCount level) = true) :
    Held v level (left ++ (name ++ ['('])) (')' :: right)

/-- A level of a canonical text. -/
structure IsLevel (v : Vocabulary) (level : List Item) : Prop where
  shape : Compact level
  laid : ∃ q, Laid (.canonical v) '(' level q ∧ MayFollow q ')'

section

variable {v : Vocabulary} {items level inner first last : List Item}
  {before after left right name : Text} {c : Char} {x : Item}

theorem Laid.getLast? {r : Rules} {p q : Char} (h : Laid r p items q) (hq : q ≠ ')') :
    (items = [] ∧ q = p) ∨ (textOf items).getLast? = some q := by
  induction items generalizing p with
  | nil =>
    cases h
    exact .inl ⟨rfl, rfl⟩
  | cons x rest ih =>
    obtain ⟨-, hrest⟩ := h.of_cons
    rcases ih hrest with ⟨rfl, rfl⟩ | hlast
    · rcases isOperand_or_sign x with hx | ⟨c, rfl⟩
      · exact absurd (ending_of_isOperand hx) hq
      · exact .inr (by simp [Item.ending])
    · refine .inr ?_
      rw [textOf, List.getLast?_append, hlast]
      rfl

theorem atOperand_concat (t : Text) : AtOperand (t ++ ['(']) := by simp [AtOperand, unaryPlaces]

theorem Held.atOperand (h : Held v level before after) : AtOperand before := by
  cases h with
  | whole => simp [AtOperand]
  | @group left => exact atOperand_concat left
  | @call left _ name =>
    rw [← List.append_assoc]
    exact atOperand_concat _

theorem IsLevel.atOperand (h : IsLevel v (first ++ x :: last)) (hx : x.isOperand = true)
    (hbefore : AtOperand before) : AtOperand (before ++ textOf first) := by
  obtain ⟨q, hq, -⟩ := h.laid
  obtain ⟨m, hfirst, hlast⟩ := hq.exists_of_append
  obtain ⟨hclose, hfactorial⟩ : m ≠ ')' ∧ m ≠ '!' := by
    cases hlast with
    | sign hs hf _ => cases hx
    | run hf _ _ | group hf _ _ _ _ | call hf _ _ _ _ => exact hf.1 rfl
  rcases hfirst.getLast? hclose with ⟨rfl, -⟩ | hend
  · simpa using hbefore
  · intro c hc
    rw [List.getLast?_append, hend] at hc
    obtain rfl : m = c := by simpa using hc
    have hsign : isSign m = true := by
      rcases hfirst.ending_eq (by rintro rfl; simp at hend) with rfl | hs
      · exact absurd rfl hclose
      · exact hs
    simp only [isSign, List.contains_iff_mem, List.mem_cons, List.not_mem_nil, or_false] at hsign
    simp only [unaryPlaces, List.mem_cons, List.not_mem_nil, or_false]
    tauto

theorem IsLevel.inGroup (h : IsLevel v (first ++ .group inner :: last)) (hbefore : AtOperand before)
    (right : Text) :
    IsLevel v inner ∧ Held v inner (before ++ (textOf first ++ ['('])) (')' :: right) := by
  obtain ⟨q, hq, -⟩ := h.laid
  obtain ⟨m, hfirst, hlast⟩ := hq.exists_of_append
  cases hlast with
  | group hf hg hinner hend _ =>
    refine ⟨⟨hg.1, _, hinner, hend⟩, ?_⟩
    rw [← List.append_assoc]
    exact .group (h.atOperand rfl hbefore) hg.2

theorem IsLevel.called (h : IsLevel v (first ++ .call name inner :: last)) :
    IsCalled v name ∧ IsLevel v inner ∧
    ∃ arity, v.arity? name = some arity ∧ arity.admits (argumentCount inner) = true := by
  obtain ⟨q, hq, -⟩ := h.laid
  obtain ⟨m, hfirst, hlast⟩ := hq.exists_of_append
  cases hlast with
  | call hf hc hinner hend _ =>
    obtain ⟨hname, hshape, harity⟩ := hc
    exact ⟨hname, ⟨hshape, _, hinner, hend⟩, harity⟩

theorem IsLevel.inCall (h : IsLevel v (first ++ .call name inner :: last))
    (hbefore : AtOperand before) (right : Text) :
    IsLevel v inner ∧
      Held v inner (before ++ (textOf first ++ (name ++ ['(']))) (')' :: right) := by
  obtain ⟨hname, hinner, arity, harity, hcount⟩ := h.called
  refine ⟨hinner, ?_⟩
  rw [← List.append_assoc]
  exact .call (h.atOperand rfl hbefore) hname harity hcount

theorem IsLevel.at {pre post : Text} (h : IsLevel v items) (hheld : Held v items pre post)
    (hl : LevelAt items before level after) :
    IsLevel v level ∧ Held v level (pre ++ before) (after ++ post) := by
  induction hl generalizing pre post with
  | whole => exact ⟨h, by simpa using hheld⟩
  | @group first inner last level before after _ ih =>
    obtain ⟨hlevel, hinner⟩ := h.inGroup hheld.atOperand (textOf last ++ post)
    obtain ⟨hlevel, hat⟩ := ih hlevel hinner
    exact ⟨hlevel, by simpa using hat⟩
  | @call first inner last level name before after _ ih =>
    obtain ⟨hlevel, hinner⟩ := h.inCall hheld.atOperand (textOf last ++ post)
    obtain ⟨hlevel, hat⟩ := ih hlevel hinner
    exact ⟨hlevel, by simpa using hat⟩

theorem Normal.isLevel (h : Normal v items) : IsLevel v items := ⟨h.shape, h.laid⟩

theorem Normal.held (h : Normal v items) : Held v items [] [] := .whole h.noComma

end

end Abacus
