import Abacus.Proofs.Canonical.NormalForm
import Abacus.Proofs.Expr.Building

/-! How the text of a level divides: at its last sign of the loosest kind, and else into what its
one operand is made of. So the tree of a level is put together from those of its parts. -/

namespace Abacus

/-- The signs that a text is divided at before this one. -/
def Operator.looser : Operator → List Char
  | .add => []
  | .subtract => ['+']
  | .multiply => ['+', '-']
  | .divide => ['+', '-', '*']
  | .power => ['+', '-', '*', '/']

section Literals

variable {t : Text} {c : Char}

theorem decimal?_eq_none (hc : c ∈ t) (hdigit : c.isDigit = false) (hpoint : c ≠ '.' ∧ c ≠ ',') :
    decimal? t = none := by
  have hafter : c ∈ t.dropWhile Char.isDigit := by
    have hmem : c ∈ t.takeWhile Char.isDigit ++ t.dropWhile Char.isDigit := by
      rwa [List.takeWhile_append_dropWhile]
    rcases List.mem_append.mp hmem with h | h
    · rw [List.mem_takeWhile_imp h] at hdigit
      cases hdigit
    · exact h
  simp only [decimal?]
  split
  · next he =>
    rw [he] at hafter
    cases hafter
  · next point fraction he =>
    rw [he] at hafter
    rw [if_neg]
    rintro ⟨hp, hall, -⟩
    rcases List.mem_cons.mp hafter with rfl | hmem
    · exact hp.elim hpoint.1 hpoint.2
    · rw [List.all_eq_true.mp hall c hmem] at hdigit
      cases hdigit

theorem literal?_eq_none (hc : c ∈ t) (hdigit : c.isDigit = false) (hother : c ∉ ['.', ',', '-']) :
    literal? t = none := by
  simp only [List.mem_cons, List.not_mem_nil, or_false, not_or] at hother
  unfold literal?
  split
  · next rest =>
    have hmem : c ∈ rest := (List.mem_cons.mp hc).resolve_left hother.2.2
    rw [decimal?_eq_none hmem hdigit ⟨hother.1, hother.2.1⟩]
    rfl
  · rw [decimal?_eq_none hc hdigit ⟨hother.1, hother.2.1⟩]
    rfl

theorem IsNumber.decimal? (h : IsNumber t) : ∃ d, Abacus.decimal? t = some d := by
  obtain ⟨c, rest, rfl, hc⟩ := h.first
  have hwhole : (c :: rest).takeWhile Char.isDigit ≠ [] := by simp [hc]
  simp only [Abacus.decimal?]
  split
  · exact ⟨_, if_neg hwhole⟩
  · next point fraction he =>
    have hpoint : point.isDigit = false := by
      have hhead := List.head?_dropWhile_not Char.isDigit (c :: rest)
      simpa [he] using hhead
    have hmem {d : Char} (hd : d ∈ point :: fraction) : d ∈ c :: rest :=
      (List.dropWhile_sublist _).subset (he ▸ hd)
    obtain rfl : point = '.' := by
      rcases h.digits point (hmem List.mem_cons_self) with hd | rfl
      · rw [hd] at hpoint
        cases hpoint
      · rfl
    have hcount : fraction.count '.' = 0 := by
      have hle :=
        ((List.dropWhile_sublist Char.isDigit (l := c :: rest)).count_le '.').trans h.point
      rw [he, List.count_cons_self] at hle
      omega
    have hall : fraction.all Char.isDigit = true := by
      refine List.all_eq_true.mpr fun d hd => ?_
      rcases h.digits d (hmem (List.mem_cons_of_mem _ hd)) with hdigit | rfl
      · exact hdigit
      · exact absurd hd (List.count_eq_zero.mp hcount)
    exact ⟨_, if_pos ⟨.inl rfl, hall, .inl hwhole⟩⟩

theorem IsNumber.literal? (h : IsNumber t) :
    ∃ d, Abacus.decimal? t = some d ∧ Abacus.literal? t = some (.number d.toFloat) := by
  obtain ⟨d, hd⟩ := h.decimal?
  refine ⟨d, hd, ?_⟩
  obtain ⟨c, rest, rfl, hc⟩ := h.first
  unfold Abacus.literal?
  split
  · next he =>
    obtain ⟨rfl, -⟩ := List.cons.inj he
    exact absurd hc (by decide)
  · rw [hd]
    rfl

theorem IsWord.literal?_append (h : IsWord t) (left : Text) :
    Abacus.literal? (left ++ t) = none := by
  obtain ⟨c, rest, rfl, hc⟩ := h.first
  refine Abacus.literal?_eq_none (List.mem_append_right _ List.mem_cons_self) ?_ ?_
  · by_contra hdigit
    rw [isNameStart_digit (by simpa using hdigit)] at hc
    cases hc
  · simp only [List.mem_cons, List.not_mem_nil, or_false, not_or]
    exact ⟨ne_of_nameStart hc rfl, ne_of_nameStart hc rfl, ne_of_nameStart hc rfl⟩

theorem IsWord.literal?_eq_none (h : IsWord t) : Abacus.literal? t = none := h.literal?_append []

end Literals

section Groups

variable {items inner : List Item}

theorem Loose.textOf_ne_nil (h : Loose items) (hne : items ≠ []) : textOf items ≠ [] := by
  obtain ⟨q, hq⟩ := h
  rwa [ne_eq, hq.textOf_eq_nil]

theorem Loose.held {name : Text} (h : Loose [.call name inner]) : Loose inner := by
  obtain ⟨q, hq⟩ := h
  cases hq with
  | call _ _ hinner _ _ => exact hinner.loose

theorem withoutOuterGroups_group (h : Loose inner) (hne : inner ≠ []) :
    withoutOuterGroups (textOf [.group inner]) = withoutOuterGroups (textOf inner) := by
  obtain ⟨c, t, ht⟩ := List.exists_cons_of_ne_nil (h.textOf_ne_nil hne)
  rw [textOf_group, textOf_nil, withoutOuterGroups, if_pos rfl, h.nested.splitGroup_close]
  rw [ht]

theorem withoutOuterGroups_textOf (h : Loose items) (hgroup : ∀ inner, items ≠ [.group inner]) :
    withoutOuterGroups (textOf items) = textOf items := by
  have hother {c : Char} {t : Text} (hc : c ≠ '(') : withoutOuterGroups (c :: t) = c :: t := by
    rw [withoutOuterGroups, if_neg hc]
  obtain ⟨q, hq⟩ := h
  cases hq with
  | nil => rw [textOf_nil, withoutOuterGroups]
  | sign hs _ _ =>
    rw [textOf_sign]
    exact hother (ne_open_of_sign hs)
  | @run _ _ t rest _ ht _ =>
    obtain ⟨c, t, rfl⟩ := List.exists_cons_of_ne_nil ht.1
    rw [textOf_run]
    exact hother (ne_open_of_operand (ht.2 c List.mem_cons_self))
  | @call _ _ _ name inner rest _ hc _ _ _ =>
    obtain ⟨c, name, rfl⟩ := List.exists_cons_of_ne_nil hc.1
    rw [textOf_call]
    exact hother (ne_open_of_operand (hc.2 c List.mem_cons_self))
  | @group _ _ _ inner rest _ _ hinner _ hrest =>
    have hne : rest ≠ [] := by
      rintro rfl
      exact hgroup inner rfl
    obtain ⟨c, t, ht⟩ := List.exists_cons_of_ne_nil (hrest.loose.textOf_ne_nil hne)
    rw [textOf_group, withoutOuterGroups, if_pos rfl, hinner.loose.nested.splitGroup_close, ht]
    cases textOf inner <;> rfl

end Groups

section Signs

variable {items first last : List Item}

theorem Loose.nested_of_not_mem (h : Loose items) {c : Char} (hc : isSign c = true)
    (hnone : .sign c ∉ items) : Nested '(' ')' (· ≠ c) (textOf items) := by
  obtain ⟨q, hq⟩ := h
  refine hq.nested (fun d hd => ?_) fun d hd => ?_
  · rintro rfl
    rw [not_sign_of_operand hd] at hc
    cases hc
  · rintro rfl
    exact hnone hd

theorem Operator.isSign_symbol (op : Operator) : isSign op.symbol = true := by
  cases op <;> rfl

theorem atOperator?_eq_none (h : Loose items) {op : Operator} (hnone : .sign op.symbol ∉ items) :
    Split.atOperator? op (textOf items) = none := by
  have hnested := h.nested_of_not_mem op.isSign_symbol hnone
  rw [Split.atOperator?, hnested.splitAtLast?_eq_none (ne_open_of_sign op.isSign_symbol)]
  rfl

theorem atSubtract_eq_none (h : Loose items) (hnone : .sign '-' ∉ items.tail) :
    Split.atOperator? .subtract (textOf items) = none := by
  cases items with
  | nil => exact atOperator?_eq_none h (by simp)
  | cons x rest =>
    by_cases hx : x = .sign '-'
    · subst hx
      have hrest : Nested '(' ')' (· ≠ '-') (textOf rest) :=
        (loose_cons.mp h).2.nested_of_not_mem (by decide) hnone
      have hlast (previous : Option Char) :
          splitAtLast? '-' (fun p => p.any Split.endsOperand) 0 previous (textOf rest) = none :=
        hrest.splitAtLast?_eq_none (by decide) previous
      simp [Split.atOperator?, Operator.symbol, splitAtLast?, depthAfter, hlast]
    · refine atOperator?_eq_none h fun hmem => ?_
      rcases List.mem_cons.mp hmem with he | hmem
      · exact hx he.symm
      · exact hnone hmem

theorem atOperator?_eq_some {op : Operator} (hop : op ≠ .subtract)
    (h : Loose (first ++ .sign op.symbol :: last)) (hlast : .sign op.symbol ∉ last) :
    Split.atOperator? op (textOf (first ++ .sign op.symbol :: last)) =
      some (.binary op (textOf first) (textOf last)) := by
  obtain ⟨hfirst, hrest⟩ := loose_append.mp h
  have hafter := (loose_cons.mp hrest).2.nested_of_not_mem op.isSign_symbol hlast
  have hcounts (previous : Option Char) :
      (if op = .subtract then previous.any Split.endsOperand else true) = true := by
    rw [if_neg hop]
  rw [textOf_append, textOf_sign, Split.atOperator?, hfirst.nested.splitAtLast?_eq_some hafter
    (ne_open_of_sign op.isSign_symbol) (ne_close_of_sign op.isSign_symbol) hcounts]
  rfl

theorem atSign?_eq_none (h : Loose items) (hnone : .sign '-' ∉ items) :
    Split.atSign? (textOf items) = none := by
  unfold Split.atSign?
  split
  · next rest he =>
    have hnested := h.nested_of_not_mem (by decide) hnone
    rw [he] at hnested
    cases hnested with
    | char _ _ hne _ => exact absurd rfl hne
  · rfl

theorem literal?_of_sign {c : Char} (hc : isSign c = true) (hmem : .sign c ∈ items)
    (hother : c ∉ [',', '-']) : literal? (textOf items) = none := by
  obtain ⟨before, after, rfl⟩ := List.append_of_mem hmem
  have hchar : c ∈ textOf (before ++ .sign c :: after) := by simp [textOf_append]
  refine literal?_eq_none hchar ?_ ?_
  all_goals
    simp only [isSign, List.contains_iff_mem, List.mem_cons, List.not_mem_nil, or_false,
      not_or] at hc hother ⊢
    rcases hc with rfl | rfl | rfl | rfl | rfl | rfl | rfl <;> simp at hother ⊢

end Signs

namespace Split

variable {items first last : List Item}

/-- A level divides at the last one of its loosest signs. -/
theorem ofText_operator {op : Operator} (hop : op ≠ .subtract)
    (h : Loose (first ++ .sign op.symbol :: last)) (hlast : .sign op.symbol ∉ last)
    (hlooser : ∀ c ∈ op.looser, .sign c ∉ first ++ .sign op.symbol :: last) :
    ofText (textOf (first ++ .sign op.symbol :: last)) =
      .ok (.binary op (textOf first) (textOf last)) := by
  have hne := h.textOf_ne_nil (by simp)
  have hliteral : literal? (textOf (first ++ .sign op.symbol :: last)) = none := by
    refine literal?_of_sign op.isSign_symbol (by simp) ?_
    cases op <;> first | exact absurd rfl hop | decide
  have hat := atOperator?_eq_some hop h hlast
  have hnone (other : Operator) (hmem : other.symbol ∈ op.looser) :=
    atOperator?_eq_none h (hlooser _ hmem)
  have hsign (hmem : '-' ∈ op.looser) := atSign?_eq_none h (hlooser '-' hmem)
  rw [ofText, if_neg hne, hliteral]
  cases op with
  | add => simp only [signs, List.findSome?_cons, hat]
  | subtract => exact absurd rfl hop
  | multiply =>
    simp only [signs, List.findSome?_cons, hat, hnone .add (by decide), hnone .subtract (by decide),
      hsign (by decide)]
  | divide =>
    simp only [signs, List.findSome?_cons, hat, hnone .add (by decide), hnone .subtract (by decide),
      hsign (by decide), hnone .multiply (by decide)]
  | power =>
    simp only [signs, List.findSome?_cons, hat, hnone .add (by decide), hnone .subtract (by decide),
      hsign (by decide), hnone .multiply (by decide), hnone .divide (by decide)]

theorem ofText_negative (h : Loose (.sign '-' :: items)) (hadd : .sign '+' ∉ items)
    (hminus : .sign '-' ∉ items) (hliteral : literal? ('-' :: textOf items) = none) :
    ofText (textOf (.sign '-' :: items)) = .ok (.negate (textOf items)) := by
  have hplus : atOperator? .add (textOf (.sign '-' :: items)) = none :=
    atOperator?_eq_none h (by simpa [Operator.symbol] using hadd)
  have hsubtract := atSubtract_eq_none h hminus
  rw [textOf_sign] at hplus hsubtract ⊢
  rw [ofText, if_neg (by simp), hliteral]
  simp only [signs, List.findSome?_cons, hplus, hsubtract, atSign?]

theorem ofText_of_no_operator (h : Loose items) (hne : items ≠ [])
    (hnone : ∀ op : Operator, .sign op.symbol ∉ items) (hliteral : literal? (textOf items) = none) :
    ofText (textOf items) = ofFactorial (textOf items) := by
  rw [ofText, if_neg (h.textOf_ne_nil hne), hliteral]
  simp only [signs, List.findSome?_cons, List.findSome?_nil, atOperator?_eq_none h (hnone _),
    atSign?_eq_none h (hnone .subtract)]

theorem ofText_factorial (h : Loose (items ++ [.sign '!']))
    (hnone : ∀ op : Operator, .sign op.symbol ∉ items) :
    ofText (textOf (items ++ [.sign '!'])) = .ok (.factorial (textOf items)) := by
  have hliteral : literal? (textOf (items ++ [.sign '!'])) = none :=
    literal?_of_sign (c := '!') rfl (by simp) (by decide)
  have hops (op : Operator) : .sign op.symbol ∉ items ++ [.sign '!'] := by
    rw [List.mem_append, not_or]
    refine ⟨hnone op, ?_⟩
    cases op <;> simp [Operator.symbol]
  have hlast (previous : Option Char) : splitAtLast? '!' (fun _ => true) 0 previous
      (textOf items ++ '!' :: []) = some (textOf items, []) :=
    (loose_append.mp h).1.nested.splitAtLast?_eq_some (.nil _) (by decide) (by decide)
      (fun _ => rfl) previous
  rw [ofText_of_no_operator h (by simp) hops hliteral, textOf_append, textOf_sign, textOf_nil,
    ofFactorial, hlast]

theorem ofText_call {name : Text} {inner : List Item} (h : Loose [.call name inner]) :
    ofText (textOf [.call name inner]) = .ok (.call name (argumentsIn (textOf inner))) := by
  have hopen : '(' ∈ textOf [.call name inner] := by simp
  have hinner := h.held
  have hname := h.name_operands
  have hliteral := literal?_eq_none hopen (by decide) (by decide)
  have hbang : splitAtLast? '!' (fun _ => true) 0 none (textOf [.call name inner]) = none :=
    (h.nested_of_not_mem (c := '!') rfl (by simp)).splitAtLast?_eq_none (by decide) none
  have hconstant : Constant.ofName? (textOf [.call name inner]) = none := by
    refine List.find?_eq_none.mpr fun k _ he => ?_
    rw [← eq_of_beq he] at hopen
    cases k <;> simp [Constant.name] at hopen
  have hwords : ∀ c ∈ name, (c != '(') = true := fun c hc => by
    simpa using ne_open_of_operand (hname c hc)
  have htext : textOf [.call name inner] = name ++ '(' :: (textOf inner ++ [')']) := by simp
  rw [ofText_of_no_operator h (by simp) (by simp) hliteral, ofFactorial, hbang]
  simp only [ofAtom, hconstant, argumentsIn]
  rw [htext, List.dropWhile_append_of_pos hwords, List.takeWhile_append_of_pos hwords]
  simp [hinner.nested.splitGroup_close]

theorem ofText_run {t : Text} (h : Loose [.run t]) (hliteral : literal? t = none) :
    ofText t = ofAtom t := by
  have htext : textOf [.run t] = t := by simp
  have hbang : splitAtLast? '!' (fun _ => true) 0 none t = none := by
    have hnested : Nested '(' ')' (· ≠ '!') (textOf [.run t]) := h.nested_of_not_mem rfl (by simp)
    rw [htext] at hnested
    exact hnested.splitAtLast?_eq_none (by decide) none
  have hnone := ofText_of_no_operator h (by simp) (by simp) (by rwa [htext])
  rw [htext] at hnone
  rw [hnone, ofFactorial, hbang]

theorem ofText_constant {t : Text} {c : Constant} (h : Loose [.run t])
    (hliteral : literal? t = none) (hconstant : Constant.ofName? t = some c) :
    ofText t = .ok (.leaf (.constant c)) := by
  rw [ofText_run h hliteral, ofAtom, hconstant]

theorem ofText_word {t : Text} (h : Loose [.run t]) (hliteral : literal? t = none)
    (hconstant : Constant.ofName? t = none) :
    ofText t = if isIdentifier t then .ok (.leaf (.identifier t))
      else .error (.notUnderstood t) := by
  have hwords : ∀ c ∈ t, (c != '(') = true := fun c hc => by
    simpa using ne_open_of_operand (h.run_operands c hc)
  rw [ofText_run h hliteral, ofAtom, hconstant]
  simp only [List.dropWhile_eq_nil_iff.mpr hwords]

end Split

theorem Arguments.argumentsIn {args : List (List Item)} {items : List Item}
    (h : Arguments args items) (hloose : Loose items) :
    Abacus.argumentsIn (textOf items) = args.map textOf := by
  by_cases hne : items = []
  · have hnone : args = [] := by
      by_contra hargs
      exact h.ne_nil hargs hne
    simp [hne, hnone, Abacus.argumentsIn]
  · rw [Abacus.argumentsIn, if_neg (hloose.textOf_ne_nil hne), h.splitAtTop hloose hne]

section Forms

variable {items : List Item}

/-- A level of operands divides at the last one of any of its signs into two such levels. -/
theorem Plain.split (h : Plain items) {s : Char} (hmem : .sign s ∈ items) :
    ∃ first last, items = first ++ .sign s :: last ∧ Plain first ∧ Plain last ∧ .sign s ∉ last := by
  induction h with
  | single hx =>
    obtain rfl := List.mem_singleton.mp hmem
    cases hx
  | @cons x t rest hx ht hrest ih =>
    by_cases hlater : .sign s ∈ rest
    · obtain ⟨first, last, rfl, hfirst, hlast, hnone⟩ := ih hlater
      exact ⟨x :: .sign t :: first, last, rfl, .cons hx ht hfirst, hlast, hnone⟩
    · obtain rfl : s = t := by
        rcases List.mem_cons.mp hmem with rfl | hmem
        · cases hx
        · simpa using (List.mem_cons.mp hmem).resolve_right hlater
      exact ⟨[x], rest, rfl, .single hx, hrest, hlater⟩

theorem Plain.sign_mem (h : Plain items) {s : Char} (hmem : .sign s ∈ items) :
    s ∈ ['+', '*', '/'] := by
  induction h with
  | single hx =>
    obtain rfl := List.mem_singleton.mp hmem
    cases hx
  | cons hx ht _ ih =>
    rcases List.mem_cons.mp hmem with rfl | hmem
    · cases hx
    · rcases List.mem_cons.mp hmem with he | hmem
      · cases he
        exact ht
      · exact ih hmem

theorem Plain.sign_not_mem (h : Plain items) {c : Char} (hc : c ∉ ['+', '*', '/']) :
    .sign c ∉ items :=
  fun hmem => hc (h.sign_mem hmem)

theorem Plain.eq_single (h : Plain items) (hnone : ∀ s ∈ ['+', '*', '/'], .sign s ∉ items) :
    ∃ x, items = [x] ∧ x.isOperand = true := by
  cases h with
  | single hx => exact ⟨_, rfl, hx⟩
  | cons hx hs _ => exact absurd (by simp) (hnone _ hs)

/-- A level is one operand, or it divides into levels at a sign. -/
inductive Divides : List Item → Prop
  | operand {x : Item} (hx : x.isOperand = true) : Divides [x]
  | operator {op : Operator} {first last : List Item} (hop : op ≠ .subtract) (hfirst : Form first)
    (hlast : Form last) (hafter : .sign op.symbol ∉ last)
    (hlooser : ∀ c ∈ op.looser, .sign c ∉ first ++ .sign op.symbol :: last) :
    Divides (first ++ .sign op.symbol :: last)
  | negative {items : List Item} (h : Plain items) (hnone : .sign '+' ∉ items) :
    Divides (.sign '-' :: items)
  | factorial {x : Item} (hx : x.isOperand = true) : Divides ([x] ++ [.sign '!'])

theorem Plain.divides (h : Plain items) : Divides items := by
  have hsplit {op : Operator} (hop : op ≠ .subtract) (hmem : .sign op.symbol ∈ items)
      (hlooser : ∀ c ∈ op.looser, .sign c ∉ items) : Divides items := by
    obtain ⟨first, last, rfl, hfirst, hlast, hafter⟩ := h.split hmem
    exact .operator hop (.plain hfirst) (.plain hlast) hafter hlooser
  by_cases hadd : .sign '+' ∈ items
  · exact hsplit (show Operator.add ≠ .subtract by decide) hadd (by simp [Operator.looser])
  by_cases hmultiply : .sign '*' ∈ items
  · refine hsplit (show Operator.multiply ≠ .subtract by decide) hmultiply ?_
    simpa [Operator.looser, hadd] using h.sign_not_mem (by decide)
  by_cases hdivide : .sign '/' ∈ items
  · refine hsplit (show Operator.divide ≠ .subtract by decide) hdivide ?_
    simpa [Operator.looser, hadd, hmultiply] using h.sign_not_mem (by decide)
  · obtain ⟨x, rfl, hx⟩ := h.eq_single (by simpa [hadd, hmultiply] using hdivide)
    exact .operand hx

theorem Form.divides (h : Form items) : Divides items := by
  cases h with
  | plain h => exact h.divides
  | @negative rest h =>
    by_cases hadd : .sign '+' ∈ rest
    · obtain ⟨first, last, rfl, hfirst, hlast, hafter⟩ := h.split hadd
      have hdivides : Divides ((.sign '-' :: first) ++ .sign Operator.add.symbol :: last) :=
        .operator (by decide) (.negative hfirst) (.plain hlast) hafter (by simp [Operator.looser])
      exact hdivides
    · exact .negative h hadd
  | factorial hx => exact .factorial hx
  | @power x y hx hy =>
    have hnone {z : Item} (hz : z.isOperand = true) (c : Char) : .sign c ≠ z := fun he => by
      rw [← he] at hz
      cases hz
    have hdivides : Divides ([x] ++ .sign Operator.power.symbol :: [y]) := by
      refine .operator (by decide) (.plain (.single hx)) (.plain (.single hy)) ?_ fun c hc => ?_
      · simpa [Operator.symbol] using hnone hy '^'
      · simp only [Operator.looser, List.mem_cons, List.not_mem_nil, or_false] at hc
        rcases hc with rfl | rfl | rfl | rfl <;> simp [hnone hx, hnone hy, Operator.symbol]
    exact hdivides

end Forms

section Levels

variable {v : Vocabulary} {items a : List Item} {args : List (List Item)}

theorem Arguments.mem (h : Arguments args items) (ha : a ∈ args) {x : Item} (hx : x ∈ a) :
    x ∈ items := by
  induction h with
  | none => cases ha
  | last _ _ =>
    obtain rfl := List.mem_singleton.mp ha
    exact hx
  | cons _ _ _ ih =>
    rcases List.mem_cons.mp ha with rfl | ha
    · exact List.mem_append_left _ hx
    · exact List.mem_append_right _ (List.mem_cons_of_mem _ (ih ha))

theorem Arguments.length_textOf_le (h : Arguments args items) (ha : a ∈ args) :
    (textOf a).length ≤ (textOf items).length := by
  induction h with
  | none => cases ha
  | last _ _ =>
    obtain rfl := List.mem_singleton.mp ha
    exact Nat.le_refl _
  | cons _ _ _ ih =>
    rw [textOf_append, textOf_sign, List.length_append, List.length_cons]
    rcases List.mem_cons.mp ha with rfl | ha
    · omega
    · have := ih ha
      omega

/-- What goes over to a level from the levels that it divides into holds of every level of a
canonical text. -/
theorem Form.induction {P : List Item → Prop} (run : ∀ t, Loose [.run t] → IsValue v t → P [.run t])
    (group : ∀ inner, Loose inner → inner ≠ [] → P inner → P [.group inner])
    (call : ∀ name inner args arity, Loose [.call name inner] → Arguments args inner →
      v.arity? name = some arity → arity.admits args.length = true → (∀ a ∈ args, P a) →
      P [.call name inner])
    (operator : ∀ (op : Operator) (first last : List Item), op ≠ .subtract →
      Loose (first ++ .sign op.symbol :: last) → .sign op.symbol ∉ last →
      (∀ c ∈ op.looser, .sign c ∉ first ++ .sign op.symbol :: last) → P first → P last →
      P (first ++ .sign op.symbol :: last))
    (negative : ∀ rest, Loose (.sign '-' :: rest) → .sign '+' ∉ rest → .sign '-' ∉ rest → P rest →
      P (.sign '-' :: rest))
    (factorial : ∀ held, Loose (held ++ [.sign '!']) → (∀ op : Operator, .sign op.symbol ∉ held) →
      P held → P (held ++ [.sign '!']))
    (hform : Form items) (hloose : Loose items) (hstanding : ∀ x ∈ items, Standing v x) :
    P items := by
  -- by the length of the text, since an argument of a call is not one of the items
  induction hn : (textOf items).length using Nat.strongRecOn generalizing items with
  | ind n ih =>
    subst hn
    have part {others : List Item} (hlt : (textOf others).length < (textOf items).length)
        (hform : Form others) (hloose : Loose others) (hstanding : ∀ x ∈ others, Standing v x) :
        P others :=
      ih _ hlt hform hloose hstanding rfl
    cases hform.divides with
    | @operand x hx =>
      cases hstanding x List.mem_cons_self with
      | sign c => cases hx
      | run ht => exact run _ hloose ht
      | @group inner hinner hheld =>
        have hinside := loose_group.mp hloose
        have hne : inner ≠ [] := by
          rintro rfl
          cases hinner with
          | plain h => cases h
        exact group inner hinside hne (part (by simp) hinner hinside hheld)
      | @call name inner args arity hname hargs hforms harity hcount hheld =>
        refine call name inner args arity hloose hargs harity hcount fun a ha => ?_
        have hlt : (textOf a).length < (textOf [.call name inner]).length := by
          have hle := hargs.length_textOf_le ha
          simp only [textOf_call, List.length_append, List.length_cons]
          omega
        exact part hlt (hforms a ha) (hloose.held.subset fun x hx => hargs.mem ha hx) fun x hx =>
          hheld x (hargs.mem ha hx)
    | @operator op first last hop hfirst hlast hafter hlooser =>
      obtain ⟨hl, hr⟩ := loose_append.mp hloose
      refine operator op first last hop hloose hafter hlooser ?_ ?_
      · exact part (by simp [textOf_append]) hfirst hl fun x hx => hstanding x (by simp [hx])
      · exact part (by simp [textOf_append]; omega) hlast (loose_cons.mp hr).2 fun x hx =>
          hstanding x (by simp [hx])
    | @negative rest h hnone =>
      refine negative rest hloose hnone (h.sign_not_mem (by decide))
        (part (by simp) (.plain h) (loose_cons.mp hloose).2 fun x hx => ?_)
      exact hstanding x (List.mem_cons_of_mem _ hx)
    | @factorial x hx =>
      have hnone (op : Operator) : .sign op.symbol ∉ [x] := by
        rintro hmem
        obtain rfl := List.mem_singleton.mp hmem
        cases hx
      have hlt : (textOf [x]).length < (textOf ([x] ++ [.sign '!'])).length := by
        rw [textOf_append, textOf_sign, List.length_append]
        simp
      refine factorial [x] hloose hnone
        (part hlt (.plain (.single hx)) (loose_append.mp hloose).1 fun y hy => ?_)
      exact hstanding y (List.mem_append_left _ hy)

end Levels

namespace Expr

variable {v : Vocabulary} {items first last inner : List Item}

theorem build_group (h : Loose inner) (hne : inner ≠ []) :
    build v (textOf [.group inner]) = build v (textOf inner) :=
  build_congr (withoutOuterGroups_group h hne)

theorem build_operator {op : Operator} (hop : op ≠ .subtract)
    (h : Loose (first ++ .sign op.symbol :: last)) (hlast : .sign op.symbol ∉ last)
    (hlooser : ∀ c ∈ op.looser, .sign c ∉ first ++ .sign op.symbol :: last) :
    build v (textOf (first ++ .sign op.symbol :: last)) =
      (do return binary op (← build v (textOf first)) (← build v (textOf last))) := by
  have hgroup (inner : List Item) : first ++ .sign op.symbol :: last ≠ [.group inner] := by
    intro he
    have hmem : .sign op.symbol ∈ [Item.group inner] := he ▸ by simp
    simp at hmem
  refine build_of_binary ?_
  rw [withoutOuterGroups_textOf h hgroup]
  exact Split.ofText_operator hop h hlast hlooser

theorem build_negative (h : Loose (.sign '-' :: items)) (hadd : .sign '+' ∉ items)
    (hminus : .sign '-' ∉ items) (hliteral : literal? ('-' :: textOf items) = none) :
    build v (textOf (.sign '-' :: items)) = negate <$> build v (textOf items) := by
  refine build_of_negate ?_
  rw [withoutOuterGroups_textOf h (by simp)]
  exact Split.ofText_negative h hadd hminus hliteral

theorem build_factorial (h : Loose (items ++ [.sign '!']))
    (hnone : ∀ op : Operator, .sign op.symbol ∉ items) :
    build v (textOf (items ++ [.sign '!'])) = factorial <$> build v (textOf items) := by
  refine build_of_factorial ?_
  rw [withoutOuterGroups_textOf h fun inner he => by simp [List.append_eq_singleton_iff] at he]
  exact Split.ofText_factorial h hnone

theorem build_call {name : Text} {args : List (List Item)} (h : Loose [.call name inner])
    (hargs : Arguments args inner) :
    build v (textOf [.call name inner]) = (do ofCall v name (← buildAll v (args.map textOf))) := by
  have hinner := h.held
  refine build_of_call ?_
  rw [withoutOuterGroups_textOf h (by simp), Split.ofText_call h, hargs.argumentsIn hinner]

theorem build_run {t : Text} {e : Expr} (h : Loose [.run t])
    (hleaf : Split.ofText t = .ok (.leaf e)) : build v (textOf [.run t]) = .ok e := by
  have htext : textOf [.run t] = t := by simp
  refine build_of_leaf ?_
  rw [withoutOuterGroups_textOf h (by simp), htext, hleaf]

theorem build_literal {e : Expr} (h : Loose items) (hgroup : ∀ inner, items ≠ [.group inner])
    (hliteral : literal? (textOf items) = some e) : build v (textOf items) = .ok e := by
  refine build_of_leaf ?_
  rw [withoutOuterGroups_textOf h hgroup, Split.ofText]
  have hne : textOf items ≠ [] := by
    intro he
    rw [he] at hliteral
    cases hliteral
  rw [if_neg hne, hliteral]

/-- A run is read as a number, as a constant or as the variable of its name. Any other word is not
understood. -/
theorem build_run_cases {t : Text} (h : Loose [.run t]) (ht : IsAtom t) :
    (∃ x, build v (textOf [.run t]) = .ok (.number x)) ∨
      (∃ c, build v (textOf [.run t]) = .ok (.constant c)) ∨
      build v (textOf [.run t]) = .ok (.identifier t) ∨
      (IsWord t ∧ isIdentifier t = false ∧
        build v (textOf [.run t]) = .error (.notUnderstood t)) := by
  have htext : textOf [.run t] = t := by simp
  have hgroup (inner : List Item) : [Item.run t] ≠ [.group inner] := by simp
  rcases ht with hnumber | hword
  · obtain ⟨d, -, hliteral⟩ := hnumber.literal?
    exact .inl ⟨_, build_literal h hgroup (htext ▸ hliteral)⟩
  · have hliteral := hword.literal?_eq_none
    cases hconstant : Constant.ofName? t with
    | some c => exact .inr (.inl ⟨c, build_run h (Split.ofText_constant h hliteral hconstant)⟩)
    | none =>
      have hsplit := Split.ofText_word h hliteral hconstant
      cases hname : isIdentifier t with
      | true => exact .inr (.inr (.inl (build_run h (by rw [hsplit, if_pos hname]))))
      | false =>
        refine .inr (.inr (.inr ⟨hword, rfl, build_of_error ?_⟩))
        rw [withoutOuterGroups_textOf h hgroup, htext, hsplit, hname]
        rfl

end Expr

end Abacus
