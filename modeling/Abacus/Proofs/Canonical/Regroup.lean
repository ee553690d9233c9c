import Abacus.Proofs.Canonical.Layout

/-! What the grouping of factorials, powers and negative terms does to a layout: within one level it
puts items into new groups, and it does so in every level. -/

namespace Abacus

/-- Changes every level inside, the deepest first. -/
def deep (f : List Item → List Item) : List Item → List Item
  | [] => []
  | .group inner :: rest => .group (f (deep f inner)) :: deep f rest
  | .call name inner :: rest => .call name (f (deep f inner)) :: deep f rest
  | x :: rest => x :: deep f rest

section

variable (f : List Item → List Item) (inner rest : List Item)

@[simp]
theorem deep_nil : deep f [] = [] := by rw [deep]

@[simp]
theorem deep_sign (c : Char) : deep f (.sign c :: rest) = .sign c :: deep f rest := by
  rw [deep] <;> simp

@[simp]
theorem deep_run (t : Text) : deep f (.run t :: rest) = .run t :: deep f rest := by
  rw [deep] <;> simp

@[simp]
theorem deep_group : deep f (.group inner :: rest) = .group (f (deep f inner)) :: deep f rest := by
  rw [deep]

@[simp]
theorem deep_call (name : Text) :
    deep f (.call name inner :: rest) = .call name (f (deep f inner)) :: deep f rest := by rw [deep]

end

/-- Goes over a level with the operand that was read last in hand. Where the level was opened by a
parenthesis, an operand and a factorial that are all of it stay as they are. -/
def enfoldFactorials (opened : Bool) (held : List Item) : List Item → List Item
  | [] => held
  | .sign c :: rest =>
    if c = '!' ∧ held ≠ [] ∧ ¬ (opened = true ∧ rest = []) then
      enfoldFactorials opened [.group (held ++ [.sign c])] rest
    else held ++ .sign c :: enfoldFactorials false [] rest
  | x :: rest => enfoldFactorials opened (held ++ [x]) rest

/-- The items before the first sign of some kind, and those from there on. -/
def itemsBefore (stops : Char → Bool) : List Item → List Item × List Item
  | [] => ([], [])
  | .sign c :: rest =>
    if stops c then ([], .sign c :: rest)
    else (.sign c :: (itemsBefore stops rest).1, (itemsBefore stops rest).2)
  | x :: rest => (x :: (itemsBefore stops rest).1, (itemsBefore stops rest).2)

section

variable (stops : Char → Bool) (rest : List Item)

@[simp]
theorem itemsBefore_nil : itemsBefore stops [] = ([], []) := by rw [itemsBefore]

@[simp]
theorem itemsBefore_sign (c : Char) : itemsBefore stops (.sign c :: rest) =
    if stops c then ([], .sign c :: rest)
    else (.sign c :: (itemsBefore stops rest).1, (itemsBefore stops rest).2) := by rw [itemsBefore]

@[simp]
theorem itemsBefore_run (t : Text) : itemsBefore stops (.run t :: rest) =
    (.run t :: (itemsBefore stops rest).1, (itemsBefore stops rest).2) := by
  rw [itemsBefore]
  simp

@[simp]
theorem itemsBefore_group (inner : List Item) : itemsBefore stops (.group inner :: rest) =
    (.group inner :: (itemsBefore stops rest).1, (itemsBefore stops rest).2) := by
  rw [itemsBefore]
  simp

@[simp]
theorem itemsBefore_call (name : Text) (inner : List Item) :
    itemsBefore stops (.call name inner :: rest) =
    (.call name inner :: (itemsBefore stops rest).1, (itemsBefore stops rest).2) := by
  rw [itemsBefore]
  simp

end

theorem itemsBefore_append (stops : Char → Bool) (items : List Item) :
    (itemsBefore stops items).1 ++ (itemsBefore stops items).2 = items := by
  fun_induction itemsBefore stops items <;> simp_all

theorem length_itemsBefore_le (stops : Char → Bool) (items : List Item) :
    (itemsBefore stops items).2.length ≤ items.length := by
  have hlen := congrArg List.length (itemsBefore_append stops items)
  rw [List.length_append] at hlen
  omega

/-- The items of an exponent, a minus in front included, and what comes after it. -/
def exponentItems : List Item → List Item × List Item
  | .sign '-' :: rest => (itemsBefore (fun c => !isOperandCharacter c) rest).map (.sign '-' :: ·) id
  | items => itemsBefore (fun c => !isOperandCharacter c) items

theorem length_exponentItems_le (items : List Item) :
    (exponentItems items).2.length ≤ items.length := by
  unfold exponentItems
  split
  · exact Nat.le_succ_of_le (length_itemsBefore_le ..)
  · exact length_itemsBefore_le ..

def enfoldPowers (opened : Bool) (held : List Item) : List Item → List Item
  | [] => held
  | .sign c :: rest =>
    if c = '^' ∧ ¬ (opened = true ∧ (exponentItems rest).2 = []) then
      enfoldPowers opened [.group (held ++ .sign c :: (exponentItems rest).1)]
        (exponentItems rest).2
    else held ++ .sign c :: enfoldPowers false [] rest
  | x :: rest => enfoldPowers opened (held ++ [x]) rest
termination_by items => items.length
decreasing_by
  all_goals have := length_exponentItems_le rest
  all_goals simp only [List.length_cons]; omega

/-- The items of the term that a level begins with, and what comes after it. -/
def termItems (items : List Item) : List Item × List Item :=
  itemsBefore ['+', '-', '*', '/', ','].contains items

/-- A difference becomes a sum; at the start and after another sign nothing is put before the new
group. -/
def plusAfter : Option Char → List Item
  | none => []
  | some c => if ['*', '/', ',', '^'].contains c then [] else [.sign '+']

/-- Goes over a level after a character; a minus that the level begins with stays in a group. -/
def enfoldNegatives (p : Option Char) : List Item → List Item
  | [] => []
  | .sign c :: rest =>
    if c = '-' ∧ p ≠ some '(' then
      plusAfter p ++ .group (.sign c :: (termItems rest).1) :: enfoldNegatives (some ')')
        (termItems rest).2
    else .sign c :: enfoldNegatives (some c) rest
  | x :: rest => x :: enfoldNegatives (some ')') rest
termination_by items => items.length
decreasing_by
  all_goals have := length_itemsBefore_le ['+', '-', '*', '/', ','].contains rest
  all_goals simp only [termItems, List.length_cons]; omega

@[simp]
theorem deep_eq_nil {f : List Item → List Item} {items : List Item} :
    deep f items = [] ↔ items = [] := by
  cases items with
  | nil => simp
  | cons x rest => cases x <;> simp

/-- What a change of levels leaves laid out loosely stays so if the change is made in every
level. -/
theorem Loose.deep {f : List Item → List Item} (hf : ∀ items, Loose items → Loose (f items))
    {p q : Char} {items : List Item} (h : Laid .loose p items q) : Loose (deep f items) := by
  induction h with
  | nil p => simpa using loose_nil
  | sign hs _ _ ih =>
    rw [deep_sign]
    exact loose_cons.mpr ⟨⟨_, .sign hs trivial (.nil _)⟩, ih⟩
  | run _ ht _ ih =>
    rw [deep_run]
    exact loose_cons.mpr ⟨⟨_, .run trivial ht (.nil _)⟩, ih⟩
  | group _ _ _ _ _ ihinner ih =>
    rw [deep_group]
    exact loose_cons.mpr ⟨loose_group.mpr (hf _ ihinner), ih⟩
  | call _ hc _ _ _ ihinner ih =>
    rw [deep_call]
    obtain ⟨m, hm⟩ := hf _ ihinner
    exact loose_cons.mpr ⟨⟨_, .call trivial hc hm trivial (.nil _)⟩, ih⟩

theorem loose_enfoldFactorials {opened : Bool} {held items : List Item}
    (h : Loose (held ++ items)) : Loose (enfoldFactorials opened held items) := by
  fun_induction enfoldFactorials opened held items with
  | case1 opened held => simpa using h
  | case2 opened held c rest hc ih =>
    apply ih
    rw [loose_append, loose_cons] at h
    exact loose_cons.mpr ⟨loose_group.mpr (loose_append.mpr ⟨h.1, h.2.1⟩), h.2.2⟩
  | case3 opened held c rest hc ih =>
    rw [loose_append, loose_cons] at h
    exact loose_append.mpr ⟨h.1, loose_cons.mpr ⟨h.2.1, ih h.2.2⟩⟩
  | case4 opened held x rest hx ih =>
    apply ih
    simpa using h

theorem Loose.enfoldFactorials {opened : Bool} {items : List Item} (h : Loose items) :
    Loose (enfoldFactorials opened [] items) := by
  have hnil : Loose ([] ++ items) := h
  exact loose_enfoldFactorials hnil

theorem Laid.enfoldFactorials_deep {p q : Char} {items : List Item} (h : Laid .loose p items q)
    (opened : Bool) :
    Loose (Abacus.enfoldFactorials opened [] (deep (Abacus.enfoldFactorials true []) items)) :=
  (Loose.deep (fun _ => Loose.enfoldFactorials) h).enfoldFactorials

theorem exponentItems_append (items : List Item) :
    (exponentItems items).1 ++ (exponentItems items).2 = items := by
  unfold exponentItems
  split <;> simp [itemsBefore_append]

theorem loose_enfoldPowers {opened : Bool} {held items : List Item} (h : Loose (held ++ items)) :
    Loose (enfoldPowers opened held items) := by
  fun_induction enfoldPowers opened held items with
  | case1 opened held => simpa using h
  | case2 opened held c rest hc ih =>
    apply ih
    rw [loose_append, loose_cons, ← exponentItems_append rest, loose_append] at h
    exact loose_cons.mpr
      ⟨loose_group.mpr (loose_append.mpr ⟨h.1, loose_cons.mpr ⟨h.2.1, h.2.2.1⟩⟩), h.2.2.2⟩
  | case3 opened held c rest hc ih =>
    rw [loose_append, loose_cons] at h
    exact loose_append.mpr ⟨h.1, loose_cons.mpr ⟨h.2.1, ih h.2.2⟩⟩
  | case4 opened held x rest hx ih =>
    apply ih
    simpa using h

theorem Loose.enfoldPowers {opened : Bool} {items : List Item} (h : Loose items) :
    Loose (enfoldPowers opened [] items) := by
  have hnil : Loose ([] ++ items) := h
  exact loose_enfoldPowers hnil

theorem Laid.enfoldPowers_deep {p q : Char} {items : List Item} (h : Laid .loose p items q)
    (opened : Bool) :
    Loose (Abacus.enfoldPowers opened [] (deep (Abacus.enfoldPowers true []) items)) :=
  (Loose.deep (fun _ => Loose.enfoldPowers) h).enfoldPowers

theorem termItems_append (items : List Item) : (termItems items).1 ++ (termItems items).2 = items :=
  itemsBefore_append ..

theorem loose_plusAfter (p : Option Char) : Loose (plusAfter p) := by
  unfold plusAfter
  split
  · exact loose_nil
  · split
    · exact loose_nil
    · exact ⟨'+', .sign (by decide) trivial (.nil _)⟩

theorem loose_enfoldNegatives {p : Option Char} {items : List Item} (h : Loose items) :
    Loose (enfoldNegatives p items) := by
  fun_induction enfoldNegatives p items with
  | case1 p => exact loose_nil
  | case2 p c rest hc ih =>
    rw [loose_cons, ← termItems_append rest, loose_append] at h
    exact loose_append.mpr
      ⟨loose_plusAfter p, loose_cons.mpr ⟨loose_group.mpr (loose_cons.mpr ⟨h.1, h.2.1⟩), ih h.2.2⟩⟩
  | case3 p c rest hc ih =>
    rw [loose_cons] at h
    exact loose_cons.mpr ⟨h.1, ih h.2⟩
  | case4 p x rest hx ih =>
    rw [loose_cons] at h
    exact loose_cons.mpr ⟨h.1, ih h.2⟩

/-- The text of an operand, or of nothing. -/
def Solid (t : Text) : Prop := Nested '(' ')' (fun c => isOperandCharacter c = true) t

/-- No operand ends here. -/
def Stops (before : Text) : Prop := ∀ c ∈ before.head?, isOperandCharacter c = false ∧ c ≠ ')'

theorem stops_open (t : Text) : Stops ('(' :: t) := by
  intro c hc
  obtain rfl : '(' = c := by simpa using hc
  exact ⟨by decide, by decide⟩

theorem stops_sign {c : Char} (h : isSign c = true) (t : Text) : Stops (c :: t) := by
  intro d hd
  obtain rfl : c = d := by simpa using hd
  exact ⟨not_operand_of_sign h, ne_close_of_sign h⟩

theorem operandBefore_eq {t before : Text} (ht : Solid t) (hb : Stops before) :
    operandBefore (t.reverse ++ before) = (t.reverse, before) := by
  have hrev : Nested ')' '(' (fun c => (!isOperandCharacter c) = false) t.reverse :=
    ht.reverse.mono fun c hc => by simp [hc]
  have hstop : runWith ')' '(' (fun c => !isOperandCharacter c) 0 before = ([], before) := by
    cases before with
    | nil => rfl
    | cons c rest =>
      obtain ⟨hop, hclose⟩ := hb c rfl
      simp [runWith, hop, hclose]
  rw [operandBefore, hrev.runWith_append (by decide), hstop, List.append_nil]

theorem Laid.textOf_eq_cons {p q : Char} {items : List Item} (h : Laid .loose p items q)
    (hne : items ≠ []) : ∃ c t, textOf items = c :: t ∧ c ≠ ')' := by
  cases h with
  | nil => exact absurd rfl hne
  | @sign _ c _ rest hs _ _ => exact ⟨c, textOf rest, textOf_sign .., ne_close_of_sign hs⟩
  | @run _ _ t rest _ ht _ =>
    obtain ⟨c, u, rfl⟩ := List.exists_cons_of_ne_nil ht.1
    exact ⟨c, u ++ textOf rest, textOf_run .., ne_close_of_operand (ht.2 c List.mem_cons_self)⟩
  | @group _ _ _ inner rest _ _ _ _ _ => exact ⟨'(', _, textOf_group .., by decide⟩
  | @call _ _ _ name inner rest _ hc _ _ _ =>
    obtain ⟨c, u, rfl⟩ := List.exists_cons_of_ne_nil hc.1
    exact ⟨c, _, textOf_call .., ne_close_of_operand (hc.2 c List.mem_cons_self)⟩

/-- How a level lies in a text: `opened` tells whether a parenthesis stands before it, and then one
closes it. -/
structure Lies (opened : Bool) (before after : Text) : Prop where
  stops : Stops before
  begins : opened = true ↔ before.head? = some '('
  ends : ∀ c ∈ after.head?, c = ')'
  closed : opened = true → after.head? = some ')'

theorem lies_group (before after : Text) : Lies true ('(' :: before) (')' :: after) where
  stops := stops_open before
  begins := by simp
  ends := by simp
  closed _ := rfl

theorem lies_sign {c : Char} (h : isSign c = true) {after : Text}
    (hends : ∀ c ∈ after.head?, c = ')') (before : Text) : Lies false (c :: before) after where
  stops := stops_sign h before
  begins := by simpa using ne_open_of_sign h
  ends := hends
  closed h := by cases h

theorem Lies.isEnclosed_eq {opened : Bool} {before after : Text} (h : Lies opened before after)
    {p q : Char} {rest : List Item} (hrest : Laid .loose p rest q) :
    isEnclosed before (textOf rest ++ after) = true ↔ opened = true ∧ rest = [] := by
  simp only [isEnclosed, Bool.and_eq_true, beq_iff_eq, ← h.begins]
  refine and_congr_right fun ho => ?_
  constructor
  · intro hhead
    by_contra hne
    obtain ⟨c, t, htext, hc⟩ := hrest.textOf_eq_cons hne
    rw [htext] at hhead
    exact hc (by simpa using hhead)
  · rintro rfl
    simpa using h.closed ho

theorem groupFactorials_push {c : Char} (hc : c ≠ '!') (before rest : Text) :
    groupFactorials before (c :: rest) = groupFactorials (c :: before) rest := by
  simp [groupFactorials, hc]

theorem groupFactorials_run {t : Text} (ht : ∀ c ∈ t, isOperandCharacter c = true)
    (before rest : Text) :
    groupFactorials before (t ++ rest) = groupFactorials (t.reverse ++ before) rest := by
  induction t generalizing before with
  | nil => rfl
  | cons c t ih =>
    have hc : c ≠ '!' := by
      rintro rfl
      exact absurd (ht _ List.mem_cons_self) (by decide)
    rw [List.cons_append, groupFactorials_push hc, ih fun d hd => ht d (List.mem_cons_of_mem _ hd)]
    simp

theorem Loose.nested {items : List Item} (h : Loose items) :
    Nested '(' ')' (fun _ => True) (textOf items) := by
  obtain ⟨q, hq⟩ := h
  exact hq.nested (fun _ _ => trivial) fun _ _ => trivial

theorem solid_append {held : List Item} {x : Item} (h : Solid (textOf held)) (hx : Solid x.text) :
    Solid (textOf (held ++ [x])) := by
  rw [textOf_append]
  have hx' : Solid (textOf [x]) := by simpa [textOf] using hx
  exact h.append hx'

theorem solid_group {inner : List Item} (h : Nested '(' ')' (fun _ => True) (textOf inner)) :
    Solid (Item.group inner).text := by
  have hgroup :
      Nested '(' ')' (fun c => isOperandCharacter c = true) ('(' :: (textOf inner ++ ')' :: [])) :=
    .group h (.nil _)
  simpa [Solid, Item.text] using hgroup

theorem solid_run {t : Text} (h : ∀ c ∈ t, isOperandCharacter c = true) :
    Solid (Item.run t).text := by
  simpa [Solid, Item.text] using nested_of_forall h fun _ hc => hc

theorem solid_call {name : Text} {inner : List Item}
    (hname : ∀ c ∈ name, isOperandCharacter c = true)
    (h : Nested '(' ')' (fun _ => True) (textOf inner)) : Solid (Item.call name inner).text := by
  have happend := (nested_of_forall hname fun _ hc => hc).append (solid_group h)
  simpa [Solid, Item.text] using happend

theorem Solid.nested_sign {held items : List Item} {c : Char} (hheld : Solid (textOf held))
    (hc : isSign c = true) (hitems : Nested '(' ')' (fun _ => True) (textOf items)) :
    Nested '(' ')' (fun _ => True) (textOf (held ++ .sign c :: items)) := by
  rw [textOf_append, textOf_sign]
  exact (hheld.mono fun _ _ => trivial).append
    (.char (ne_open_of_sign hc) (ne_close_of_sign hc) trivial hitems)

/-- Grouping factorials in a text is grouping them in its layout. -/
theorem groupFactorials_textOf {p q : Char} {items : List Item} (h : Laid .loose p items q)
    (opened : Bool) (held : List Item) (before after : Text) (hheld : Solid (textOf held))
    (hne : textOf held = [] → held = []) (hlies : Lies opened before after) :
    groupFactorials ((textOf held).reverse ++ before) (textOf items ++ after) =
      groupFactorials ((textOf (enfoldFactorials opened held
        (deep (enfoldFactorials true []) items))).reverse ++ before) after := by
  induction h generalizing opened held before after with
  | nil p => simp [enfoldFactorials]
  | @sign p c q rest hs hf hrest ih =>
    have hop := operandBefore_eq hheld hlies.stops
    have henc := hlies.isEnclosed_eq hrest
    have hcond : (c = '!' ∧ (textOf held).reverse ≠ [] ∧
        isEnclosed before (textOf rest ++ after) = false) ↔
        c = '!' ∧ held ≠ [] ∧ ¬ (opened = true ∧ rest = []) := by
      have hiff : textOf held = [] ↔ held = [] := ⟨hne, fun he => by simp [he]⟩
      rw [← henc, Bool.not_eq_true, ne_eq, List.reverse_eq_nil_iff, hiff]
    simp only [textOf_sign, List.cons_append, deep_sign, enfoldFactorials, groupFactorials, hop,
      deep_eq_nil, hcond]
    split
    · next hc =>
      have hinner : Nested '(' ')' (fun _ => True) (textOf (held ++ [.sign c])) :=
        hheld.nested_sign hs (.nil _)
      have hstep := ih opened [.group (held ++ [.sign c])] before after
        (by simpa [textOf] using solid_group hinner) (by simp) hlies
      simpa [textOf_append, hc.1] using hstep
    · have hstep := ih false [] (c :: ((textOf held).reverse ++ before)) after (.nil _) (by simp)
        (lies_sign hs hlies.ends _)
      simpa [textOf_append] using hstep
  | @run p q t rest hf ht hrest ih =>
    have hstep := ih opened (held ++ [.run t]) before after
      (solid_append (x := .run t) hheld (solid_run ht.2))
      (by simpa [textOf_append] using fun _ h => absurd h ht.1) hlies
    rw [textOf_run, List.append_assoc, groupFactorials_run ht.2]
    simpa [textOf_append, enfoldFactorials] using hstep
  | @group p m q inner rest hf hg hinner hend hrest ihinner ih =>
    have hloose := hinner.enfoldFactorials_deep true
    have hin := ihinner true [] ('(' :: ((textOf held).reverse ++ before))
      (')' :: (textOf rest ++ after)) (.nil _) (by simp) (lies_group _ _)
    have hstep := ih opened (held ++ [.group _]) before after
      (solid_append hheld (solid_group hloose.nested)) (by simp [textOf_append]) hlies
    simp only [textOf_group, List.cons_append, List.append_assoc,
      groupFactorials_push (by decide : '(' ≠ '!')]
    simp only [textOf_nil, List.reverse_nil, List.nil_append] at hin
    rw [hin, groupFactorials_push (by decide)]
    simpa [textOf_append, enfoldFactorials] using hstep
  | @call p m q name inner rest hf hc hinner hend hrest ihinner ih =>
    have hloose := hinner.enfoldFactorials_deep true
    have hin := ihinner true [] ('(' :: (name.reverse ++ ((textOf held).reverse ++ before)))
      (')' :: (textOf rest ++ after)) (.nil _) (by simp) (lies_group _ _)
    have hstep := ih opened (held ++ [.call name _]) before after
      (solid_append hheld (solid_call hc.2 hloose.nested)) (by simp [textOf_append]) hlies
    simp only [textOf_call, List.cons_append, List.append_assoc, groupFactorials_run hc.2,
      groupFactorials_push (by decide : '(' ≠ '!')]
    simp only [textOf_nil, List.reverse_nil, List.nil_append] at hin
    rw [hin, groupFactorials_push (by decide)]
    simpa [textOf_append, enfoldFactorials] using hstep

/-- A run of text that signs of some kind end and no operand ends is a run of items. -/
theorem runWith_textOf {stops : Char → Bool}
    (hop : ∀ c, isOperandCharacter c = true → stops c = false) {p q : Char} {items : List Item}
    (h : Laid .loose p items q) {after : Text} (hends : ∀ c ∈ after.head?, c = ')') :
    runWith '(' ')' stops 0 (textOf items ++ after) =
      (textOf (itemsBefore stops items).1, textOf (itemsBefore stops items).2 ++ after) := by
  have hpass {t : Text} (ht : ∀ c ∈ t, isOperandCharacter c = true) :
      Nested '(' ')' (fun c => stops c = false) t := nested_of_forall ht hop
  induction h with
  | nil p =>
    cases after with
    | nil => simp [runWith]
    | cons c rest =>
      obtain rfl : c = ')' := hends c rfl
      simp [runWith]
  | @sign p c q rest hs _ _ ih =>
    by_cases hc : stops c = true
    · simp [runWith, ne_open_of_sign hs, hc]
    · simp [runWith, ne_open_of_sign hs, ne_close_of_sign hs, hc, ih]
  | @run _ _ t rest _ ht _ ih =>
    rw [textOf_run, List.append_assoc, (hpass ht.2).runWith_append (by decide), ih]
    simp
  | @group _ _ _ inner rest _ _ hinner _ _ _ ih =>
    have hin := hinner.loose.nested
    simp only [textOf_group, List.cons_append, List.append_assoc]
    rw [hin.runWith_group (by decide), ih]
    simp
  | @call _ _ _ name inner rest _ hc hinner _ _ _ ih =>
    have hin := hinner.loose.nested
    simp only [textOf_call, List.cons_append, List.append_assoc]
    rw [(hpass hc.2).runWith_append (by decide), hin.runWith_group (by decide), ih]
    simp

theorem exponentAfter_of_ne {t : Text} (h : t.head? ≠ some '-') :
    exponentAfter t = runWith '(' ')' (fun c => !isOperandCharacter c) 0 t := by
  unfold exponentAfter
  split
  · exact absurd rfl h
  · rfl

theorem head_ne_of_operand {c d : Char} (hc : isOperandCharacter c = true)
    (hd : isOperandCharacter d = false) : c ≠ d := by
  rintro rfl
  rw [hc] at hd
  cases hd

theorem exponentAfter_textOf {items : List Item} (h : Loose items) {after : Text}
    (hends : ∀ c ∈ after.head?, c = ')') :
    exponentAfter (textOf items ++ after) =
      (textOf (exponentItems items).1, textOf (exponentItems items).2 ++ after) := by
  have hstop (c : Char) (hc : isOperandCharacter c = true) : (fun c => !isOperandCharacter c) c =
      false := by simp [hc]
  have hrun {p q : Char} {items : List Item} (h : Laid .loose p items q) :=
    runWith_textOf hstop h hends
  obtain ⟨q, hq⟩ := h
  have hplain (hhead : (textOf items ++ after).head? ≠ some '-')
      (hitems : exponentItems items = itemsBefore (fun c => !isOperandCharacter c) items) :
      exponentAfter (textOf items ++ after) =
        (textOf (exponentItems items).1, textOf (exponentItems items).2 ++ after) := by
    rw [exponentAfter_of_ne hhead, hitems, hrun hq]
  cases hq with
  | nil =>
    refine hplain ?_ rfl
    intro hminus
    exact absurd (hends '-' (by simpa using hminus)) (by decide)
  | @sign _ c _ rest hs _ hrest =>
    by_cases hc : c = '-'
    · subst hc
      rw [textOf_sign, List.cons_append, exponentAfter, hrun hrest]
      rfl
    · refine hplain (by simpa using hc) ?_
      unfold exponentItems
      split
      · next he => exact absurd (by simpa using List.cons.inj he |>.1) hc
      · rfl
  | @run _ _ t rest _ ht _ =>
    refine hplain ?_ rfl
    obtain ⟨c, u, rfl⟩ := List.exists_cons_of_ne_nil ht.1
    simpa using head_ne_of_operand (ht.2 c List.mem_cons_self) (d := '-') (by decide)
  | group _ _ _ _ _ => exact hplain (by simp) rfl
  | @call _ _ _ name inner rest _ hc _ _ _ =>
    refine hplain ?_ rfl
    obtain ⟨c, u, rfl⟩ := List.exists_cons_of_ne_nil hc.1
    simpa using head_ne_of_operand (hc.2 c List.mem_cons_self) (d := '-') (by decide)

theorem deep_append (f : List Item → List Item) (items others : List Item) :
    deep f (items ++ others) = deep f items ++ deep f others := by
  induction items with
  | nil => simp
  | cons x rest ih => cases x <;> simp [ih]

theorem itemsBefore_deep (f : List Item → List Item) (stops : Char → Bool) (items : List Item) :
    itemsBefore stops (deep f items) =
      (deep f (itemsBefore stops items).1, deep f (itemsBefore stops items).2) := by
  induction items with
  | nil => simp
  | cons x rest ih =>
    cases x with
    | sign c => by_cases hc : stops c = true <;> simp [hc, ih]
    | run t => simp [ih]
    | group inner => simp [ih]
    | call name inner => simp [ih]

theorem exponentItems_of_ne {items : List Item} (h : items.head? ≠ some (.sign '-')) :
    exponentItems items = itemsBefore (fun c => !isOperandCharacter c) items := by
  unfold exponentItems
  split
  · exact absurd rfl h
  · rfl

theorem exponentItems_deep (f : List Item → List Item) (items : List Item) :
    exponentItems (deep f items) =
      (deep f (exponentItems items).1, deep f (exponentItems items).2) := by
  by_cases h : items.head? = some (.sign '-')
  · obtain ⟨rest, rfl⟩ := List.head?_eq_some_iff.mp h
    simp [exponentItems, itemsBefore_deep]
  · have hdeep : (deep f items).head? ≠ some (.sign '-') := by
      cases items with
      | nil => simp
      | cons x rest => cases x <;> simp_all
    rw [exponentItems_of_ne h, exponentItems_of_ne hdeep, itemsBefore_deep]

@[simp]
theorem sign_mem_deep {f : List Item → List Item} {c : Char} {items : List Item} :
    Item.sign c ∈ deep f items ↔ Item.sign c ∈ items := by
  induction items with
  | nil => simp
  | cons x rest ih => cases x <;> simp [ih]

theorem not_stops_of_mem_itemsBefore {stops : Char → Bool} {c : Char} {items : List Item}
    (h : Item.sign c ∈ (itemsBefore stops items).1) : stops c = false := by
  induction items with
  | nil => simp at h
  | cons x rest ih =>
    cases x with
    | sign d =>
      by_cases hd : stops d = true
      · simp [hd] at h
      · simp only [itemsBefore_sign, hd, Bool.false_eq_true, if_false, List.mem_cons,
          Item.sign.injEq] at h
        rcases h with rfl | h
        · simpa using hd
        · exact ih h
    | run t => exact ih (by simpa using h)
    | group inner => exact ih (by simpa using h)
    | call name inner => exact ih (by simpa using h)

theorem eq_minus_of_mem_exponentItems {c : Char} {items : List Item}
    (h : Item.sign c ∈ (exponentItems items).1) : c = '-' ∨ isOperandCharacter c = true := by
  unfold exponentItems at h
  split at h
  · rcases List.mem_cons.mp h with he | h
    · exact .inl (by simpa using he)
    · exact .inr (by simpa using not_stops_of_mem_itemsBefore h)
  · exact .inr (by simpa using not_stops_of_mem_itemsBefore h)

theorem not_mem_exponentItems (items : List Item) :
    Item.sign '^' ∉ (exponentItems items).1 := fun hmem => by
  rcases eq_minus_of_mem_exponentItems hmem with he | he <;> exact absurd he (by decide)

theorem minus_not_mem_termItems (items : List Item) :
    Item.sign '-' ∉ (termItems items).1 := fun hmem =>
  absurd (not_stops_of_mem_itemsBefore hmem) (by decide)

theorem enfoldPowers_of_not_mem {opened : Bool} {held items : List Item}
    (h : Item.sign '^' ∉ items) : enfoldPowers opened held items = held ++ items := by
  fun_induction enfoldPowers opened held items with
  | case1 => simp
  | case2 opened held c rest hc ih => simp [hc.1] at h
  | case3 opened held c rest hc ih => simp [ih fun hm => h (List.mem_cons_of_mem _ hm)]
  | case4 opened held x rest hx ih => simp [ih fun hm => h (List.mem_cons_of_mem _ hm)]

theorem groupPowers_push {c : Char} (hc : c ≠ '^') (before rest : Text) :
    groupPowers before (c :: rest) = groupPowers (c :: before) rest := by
  rw [groupPowers]
  simp [hc]

theorem groupPowers_run {t : Text} (ht : ∀ c ∈ t, isOperandCharacter c = true)
    (before rest : Text) :
    groupPowers before (t ++ rest) = groupPowers (t.reverse ++ before) rest := by
  induction t generalizing before with
  | nil => rfl
  | cons c t ih =>
    have hc : c ≠ '^' := head_ne_of_operand (ht c List.mem_cons_self) (by decide)
    rw [List.cons_append, groupPowers_push hc, ih fun d hd => ht d (List.mem_cons_of_mem _ hd)]
    simp

theorem groupPowers_textOf {items : List Item} (h : Loose items) (opened : Bool) (held : List Item)
    (before after : Text) (hheld : Solid (textOf held)) (hlies : Lies opened before after) :
    groupPowers ((textOf held).reverse ++ before) (textOf items ++ after) =
      groupPowers
        ((textOf (enfoldPowers opened held (deep (enfoldPowers true []) items))).reverse ++ before)
          after := by
  induction hn : (textOf items).length
    using Nat.strongRecOn generalizing items opened held before after with
  | _ n ih =>
    subst hn
    have hlevel {inner : List Item} (hlen : (textOf inner).length < (textOf items).length)
        (hin : Loose inner) (outer rest : Text) :
        groupPowers ('(' :: outer) (textOf inner ++ ')' :: rest) =
          groupPowers (')' :: ((textOf (enfoldPowers true []
            (deep (enfoldPowers true []) inner))).reverse ++ '(' :: outer)) rest := by
      have hstep := ih _ hlen hin true [] ('(' :: outer) (')' :: rest)
        (by simpa [Solid] using .nil _) (lies_group _ _) rfl
      simp only [textOf_nil, List.reverse_nil, List.nil_append] at hstep
      rw [hstep, groupPowers_push (by decide)]
    obtain ⟨q, hq⟩ := h
    cases hq with
    | nil => simp [enfoldPowers]
    | @sign _ c _ rest hs _ hrest =>
      have hop := operandBefore_eq hheld hlies.stops
      have hexp := exponentAfter_textOf hrest.loose hlies.ends
      have hparts := exponentItems_append rest
      have htext : textOf (exponentItems rest).1 ++ textOf (exponentItems rest).2 =
          textOf rest := by
        rw [← textOf_append, hparts]
      have hlen := congrArg List.length htext
      rw [List.length_append] at hlen
      obtain ⟨hbase, hafter⟩ : Loose (exponentItems rest).1 ∧ Loose (exponentItems rest).2 :=
        loose_append.mp (hparts.symm ▸ hrest.loose)
      have hcond : (c = '^' ∧ isEnclosed before (textOf (exponentItems rest).2 ++ after) = false) ↔
          c = '^' ∧
          ¬ (opened = true ∧ (exponentItems (deep (enfoldPowers true []) rest)).2 = []) := by
        obtain ⟨m, hm⟩ := hafter
        rw [exponentItems_deep, deep_eq_nil, ← hlies.isEnclosed_eq hm, Bool.not_eq_true]
      rw [textOf_sign, List.cons_append, deep_sign, groupPowers, enfoldPowers, hop, hexp]
      simp only [hcond]
      split
      · next hc =>
        obtain ⟨rfl, -⟩ := hc
        -- the exponent has no power of its own, so it only has its groups gone through
        have hdeep : enfoldPowers false [] (deep (enfoldPowers true []) (exponentItems rest).1) =
            deep (enfoldPowers true []) (exponentItems rest).1 :=
          enfoldPowers_of_not_mem (by simpa using not_mem_exponentItems rest)
        have hinside := ih (textOf (exponentItems rest).1).length (by simp; omega) hbase false []
          ('^' :: ((textOf held).reverse ++ '(' :: before))
          (')' :: (textOf (exponentItems rest).2 ++ after))
          (by simpa [Solid] using .nil _) (lies_sign hs (by simp) _) rfl
        obtain ⟨m, hm⟩ := hbase
        have hexponent : Loose (deep (enfoldPowers true []) (exponentItems rest).1) :=
          .deep (fun _ => Loose.enfoldPowers) hm
        have hgroup := hheld.nested_sign hs hexponent.nested
        have hstep := ih (textOf (exponentItems rest).2).length (by simp; omega) hafter opened
          [.group (held ++ .sign '^' :: deep (enfoldPowers true []) (exponentItems rest).1)]
          before after (by simpa [textOf] using solid_group hgroup) hlies rfl
        rw [hdeep] at hinside
        simp only [textOf_nil, List.reverse_nil, List.nil_append] at hinside
        rw [hinside, groupPowers_push (by decide), exponentItems_deep]
        simpa [textOf_append] using hstep
      · have hstep := ih (textOf rest).length (by simp) hrest.loose false []
          (c :: ((textOf held).reverse ++ before)) after (by simpa [Solid] using .nil _)
          (lies_sign hs hlies.ends _) rfl
        simpa [textOf_append] using hstep
    | @run _ _ t rest _ ht hrest =>
      have hstep := ih (textOf rest).length (by have := List.length_pos_of_ne_nil ht.1; simp; omega)
        hrest.loose opened (held ++ [.run t]) before after
        (solid_append (x := .run t) hheld (solid_run ht.2)) hlies rfl
      rw [textOf_run, List.append_assoc, groupPowers_run ht.2]
      simpa [textOf_append, enfoldPowers] using hstep
    | @group _ _ _ inner rest _ _ hinner _ hrest =>
      have hloose := hinner.enfoldPowers_deep true
      have hstep := ih (textOf rest).length (by simp; omega) hrest.loose opened
        (held ++ [.group _]) before after (solid_append hheld (solid_group hloose.nested)) hlies rfl
      simp only [textOf_group, List.cons_append, List.append_assoc,
        groupPowers_push (by decide : '(' ≠ '^')]
      rw [hlevel (by simp only [textOf_group, List.length_cons, List.length_append]; omega)
        hinner.loose]
      simpa [textOf_append, enfoldPowers] using hstep
    | @call _ _ _ name inner rest _ hc hinner _ hrest =>
      have hloose := hinner.enfoldPowers_deep true
      have hstep := ih (textOf rest).length (by simp; omega) hrest.loose opened
        (held ++ [.call name _]) before after (solid_append hheld (solid_call hc.2 hloose.nested))
        hlies rfl
      simp only [textOf_call, List.cons_append, List.append_assoc, groupPowers_run hc.2,
        groupPowers_push (by decide : '(' ≠ '^')]
      rw [hlevel (by simp only [textOf_call, List.length_cons, List.length_append]; omega)
        hinner.loose]
      simpa [textOf_append, enfoldPowers] using hstep

theorem enfoldNegatives_of_not_mem {p : Option Char} {items : List Item}
    (h : Item.sign '-' ∉ items) : enfoldNegatives p items = items := by
  fun_induction enfoldNegatives p items with
  | case1 => rfl
  | case2 p c rest hc ih => simp [hc.1] at h
  | case3 p c rest hc ih => rw [ih fun hm => h (List.mem_cons_of_mem _ hm)]
  | case4 p x rest hx ih => rw [ih fun hm => h (List.mem_cons_of_mem _ hm)]

theorem termItems_deep (f : List Item → List Item) (items : List Item) :
    termItems (deep f items) = (deep f (termItems items).1, deep f (termItems items).2) :=
  itemsBefore_deep ..

theorem termAfter_textOf {items : List Item} (h : Loose items) {after : Text}
    (hends : ∀ c ∈ after.head?, c = ')') :
    termAfter (textOf items ++ after) =
      (textOf (termItems items).1, textOf (termItems items).2 ++ after) := by
  obtain ⟨q, hq⟩ := h
  refine runWith_textOf (fun d hd => ?_) hq hends
  rw [← Bool.not_eq_true, List.contains_iff_mem]
  intro hmem
  simp only [List.mem_cons, List.not_mem_nil, or_false] at hmem
  rcases hmem with rfl | rfl | rfl | rfl | rfl <;> cases hd

theorem groupNegatives_push {c : Char} (hc : c ≠ '-') (before rest : Text) :
    groupNegatives before (c :: rest) = groupNegatives (c :: before) rest := by
  rw [groupNegatives]
  simp [hc]

theorem groupNegatives_run {t : Text} (ht : ∀ c ∈ t, isOperandCharacter c = true)
    (before rest : Text) :
    groupNegatives before (t ++ rest) = groupNegatives (t.reverse ++ before) rest := by
  induction t generalizing before with
  | nil => rfl
  | cons c t ih =>
    have hc : c ≠ '-' := head_ne_of_operand (ht c List.mem_cons_self) (by decide)
    rw [List.cons_append, groupNegatives_push hc, ih fun d hd => ht d (List.mem_cons_of_mem _ hd)]
    simp

theorem opening_eq (p : Option Char) : opening p = '(' :: textOf (plusAfter p) := by
  cases p with
  | none => rfl
  | some c =>
    simp only [opening, plusAfter]
    split <;> rfl

theorem reverse_plusAfter (p : Option Char) :
    (textOf (plusAfter p)).reverse = textOf (plusAfter p) := by
  unfold plusAfter
  split
  · rfl
  · split <;> rfl

/-- What a minus finds before it, where the end of an operand counts as the end of a group. -/
structure Stands (p : Option Char) (before : Text) : Prop where
  opening_eq : opening before.head? = opening p
  begins : before.head? = some '(' ↔ p = some '('

theorem stands_cons (c : Char) (before : Text) : Stands (some c) (c :: before) := ⟨rfl, Iff.rfl⟩

theorem opening_of_operand {c : Char} (h : isOperandCharacter c = true) :
    opening (some c) = ['(', '+'] := by
  simp [opening, head_ne_of_operand h (d := '*') (by decide),
    head_ne_of_operand h (d := '/') (by decide), head_ne_of_operand h (d := ',') (by decide),
    head_ne_of_operand h (d := '^') (by decide)]

theorem stands_run {t : Text} (hne : t ≠ []) (ht : ∀ c ∈ t, isOperandCharacter c = true)
    (before : Text) : Stands (some ')') (t.reverse ++ before) := by
  obtain ⟨first, last, rfl⟩ := List.eq_nil_or_concat t |>.resolve_left hne
  have hlast : isOperandCharacter last = true := ht last (by simp)
  constructor
  · simpa using (opening_of_operand hlast).trans (by decide)
  · simpa using ne_open_of_operand hlast

theorem groupNegatives_textOf {items : List Item} (h : Loose items) (p : Option Char)
    (before after : Text) (hp : Stands p before) (hends : ∀ c ∈ after.head?, c = ')') :
    groupNegatives before (textOf items ++ after) =
      groupNegatives
        ((textOf (enfoldNegatives p (deep (enfoldNegatives (some '(')) items))).reverse ++ before)
          after := by
  induction hn : (textOf items).length using Nat.strongRecOn generalizing items p before after with
  | _ n ih =>
    subst hn
    have hlevel {inner : List Item} (hlen : (textOf inner).length < (textOf items).length)
        (hin : Loose inner) (outer rest : Text) :
        groupNegatives ('(' :: outer) (textOf inner ++ ')' :: rest) =
          groupNegatives (')' :: ((textOf (enfoldNegatives (some '(')
            (deep (enfoldNegatives (some '(')) inner))).reverse ++ '(' :: outer)) rest := by
      rw [ih _ hlen hin (some '(') ('(' :: outer) (')' :: rest) (stands_cons ..) (by simp) rfl,
        groupNegatives_push (by decide)]
    obtain ⟨q, hq⟩ := h
    cases hq with
    | nil => simp [enfoldNegatives]
    | @sign _ c _ rest hs _ hrest =>
      have hterm := termAfter_textOf hrest.loose hends
      have hparts := termItems_append rest
      have hlen := congrArg (fun items => (textOf items).length) hparts
      simp only [textOf_append, List.length_append] at hlen
      obtain ⟨hfirst, hafter⟩ : Loose (termItems rest).1 ∧ Loose (termItems rest).2 :=
        loose_append.mp (hparts.symm ▸ hrest.loose)
      have hcond : (c = '-' ∧ before.head? ≠ some '(') ↔ c = '-' ∧ p ≠ some '(' := by
        rw [ne_eq, hp.begins]
      rw [textOf_sign, List.cons_append, deep_sign, groupNegatives, enfoldNegatives, hterm,
        hp.opening_eq, opening_eq]
      simp only [hcond]
      split
      · next hc =>
        obtain ⟨rfl, -⟩ := hc
        -- no minus stands in the term outside its groups, so it only has its groups gone through
        have hdeep : enfoldNegatives (some '-')
            (deep (enfoldNegatives (some '(')) (termItems rest).1) =
              deep (enfoldNegatives (some '(')) (termItems rest).1 :=
          enfoldNegatives_of_not_mem (by simpa using minus_not_mem_termItems rest)
        have hinside := ih (textOf (termItems rest).1).length (by simp; omega) hfirst (some '-')
          ('-' :: ('(' :: textOf (plusAfter p) ++ before))
          (')' :: (textOf (termItems rest).2 ++ after))
          (stands_cons ..) (by simp) rfl
        have hstep := ih (textOf (termItems rest).2).length (by simp; omega) hafter (some ')')
          (')' :: ((textOf (deep (enfoldNegatives (some '(')) (termItems rest).1)).reverse ++
            '-' :: ('(' :: textOf (plusAfter p) ++ before))) after (stands_cons ..) hends rfl
        rw [hdeep] at hinside
        rw [hinside, groupNegatives_push (by decide), hstep, termItems_deep]
        simp [textOf_append, reverse_plusAfter]
      · have hstep := ih (textOf rest).length (by simp) hrest.loose (some c) (c :: before) after
          (stands_cons ..) hends rfl
        simpa using hstep
    | @run _ _ t rest _ ht hrest =>
      have hstep := ih (textOf rest).length (by have := List.length_pos_of_ne_nil ht.1; simp; omega)
        hrest.loose (some ')') (t.reverse ++ before) after (stands_run ht.1 ht.2 before) hends rfl
      rw [textOf_run, List.append_assoc, groupNegatives_run ht.2]
      simpa [enfoldNegatives] using hstep
    | @group _ _ _ inner rest _ _ hinner _ hrest =>
      have hstep := fun outer =>
        ih (textOf rest).length (by simp; omega) hrest.loose (some ')') (')' :: outer) after
          (stands_cons ..) hends rfl
      simp only [textOf_group, List.cons_append, List.append_assoc,
        groupNegatives_push (by decide : '(' ≠ '-')]
      rw [hlevel (by simp only [textOf_group, List.length_cons, List.length_append]; omega)
        hinner.loose, hstep]
      simp [enfoldNegatives]
    | @call _ _ _ name inner rest _ hc hinner _ hrest =>
      have hstep := fun outer =>
        ih (textOf rest).length (by simp; omega) hrest.loose (some ')') (')' :: outer) after
          (stands_cons ..) hends rfl
      simp only [textOf_call, List.cons_append, List.append_assoc, groupNegatives_run hc.2,
        groupNegatives_push (by decide : '(' ≠ '-')]
      rw [hlevel (by simp only [textOf_call, List.length_cons, List.length_append]; omega)
        hinner.loose, hstep]
      simp [enfoldNegatives]

/-- Every factorial, wherever it stands, in a group of its own. -/
def apartFactorials (items : List Item) : List Item :=
  enfoldFactorials false [] (deep (enfoldFactorials true []) items)

def apartPowers (items : List Item) : List Item :=
  enfoldPowers false [] (deep (enfoldPowers true []) items)

def apartNegatives (items : List Item) : List Item :=
  enfoldNegatives none (deep (enfoldNegatives (some '(')) items)

section

variable {items : List Item} (h : Loose items)
include h

theorem Loose.apartFactorials : Loose (apartFactorials items) := by
  obtain ⟨q, hq⟩ := h
  exact hq.enfoldFactorials_deep false

theorem Loose.apartPowers : Loose (apartPowers items) := by
  obtain ⟨q, hq⟩ := h
  exact hq.enfoldPowers_deep false

theorem Loose.apartNegatives : Loose (apartNegatives items) := by
  obtain ⟨q, hq⟩ := h
  exact loose_enfoldNegatives (Loose.deep (fun _ => loose_enfoldNegatives) hq)

theorem scopeFactorials_textOf :
    scopeFactorials (textOf items) = textOf (Abacus.apartFactorials items) := by
  obtain ⟨q, hq⟩ := h
  have hlies : Lies false [] [] := ⟨by simp [Stops], by simp, by simp, by simp⟩
  have hall := groupFactorials_textOf hq false [] [] [] (.nil _) (by simp) hlies
  simpa [scopeFactorials, groupFactorials, Abacus.apartFactorials] using hall

theorem scopePowers_textOf : scopePowers (textOf items) = textOf (Abacus.apartPowers items) := by
  have hlies : Lies false [] [] := ⟨by simp [Stops], by simp, by simp, by simp⟩
  have hall := groupPowers_textOf h false [] [] [] (.nil _) hlies
  simpa [scopePowers, groupPowers, Abacus.apartPowers] using hall

theorem groupNegatives_nil_textOf :
    groupNegatives [] (textOf items) = textOf (Abacus.apartNegatives items) := by
  have hall := groupNegatives_textOf h none [] [] ⟨rfl, by simp⟩ (by simp)
  simpa [groupNegatives, Abacus.apartNegatives] using hall

end

end Abacus
