import Mathlib.Data.List.Chain
import Abacus.Canonical.Basic
import Abacus.Proofs.Text.Nested

/-! A text as a sequence of signs and operands: an operand is a run of letters, digits and points, a
group, or a call, which is a run with a group after it. What may stand next to what, and what a run
or a group may be, is given by rules; a layout is laid out by some rules from one character on up to
another, where every operand counts as a group seen from outside: it begins like `(` and ends like
`)`. -/

namespace Abacus

def isSign (c : Char) : Bool := ['!', '^', '+', '-', '*', '/', ','].contains c

inductive Item where
  | sign (c : Char)
  | run (t : Text)
  | group (items : List Item)
  | call (name : Text) (items : List Item)

mutual

def Item.text : Item → Text
  | .sign c => [c]
  | .run t => t
  | .group items => '(' :: (textOf items ++ [')'])
  | .call name items => name ++ '(' :: (textOf items ++ [')'])

def textOf : List Item → Text
  | [] => []
  | x :: rest => x.text ++ textOf rest

end

@[simp]
theorem textOf_nil : textOf [] = [] := by simp only [textOf]

@[simp]
theorem textOf_sign (c : Char) (rest : List Item) :
    textOf (.sign c :: rest) = c :: textOf rest := by
  simp only [textOf, Item.text, List.cons_append, List.nil_append]

@[simp]
theorem textOf_run (t : Text) (rest : List Item) : textOf (.run t :: rest) = t ++ textOf rest := by
  simp only [textOf, Item.text]

@[simp]
theorem textOf_group (items rest : List Item) :
    textOf (.group items :: rest) = '(' :: (textOf items ++ ')' :: textOf rest) := by
  simp [textOf, Item.text]

@[simp]
theorem textOf_call (name : Text) (items rest : List Item) :
    textOf (.call name items :: rest) = name ++ '(' :: (textOf items ++ ')' :: textOf rest) := by
  simp [textOf, Item.text]

theorem textOf_append (items others : List Item) :
    textOf (items ++ others) = textOf items ++ textOf others := by
  induction items with
  | nil => simp
  | cons x rest ih => simp only [List.cons_append, textOf, ih, List.append_assoc]

namespace Item

def isOperand : Item → Bool
  | sign _ => false
  | _ => true

/-- What a character after the item comes after. -/
def ending : Item → Char
  | sign c => c
  | _ => ')'

end Item

/-- What may come after what, which runs there are, and what a group and a call may hold. -/
structure Rules where
  follows : Char → Char → Prop
  run : Text → Prop
  group : List Item → Prop
  call : Text → List Item → Prop

inductive Laid (r : Rules) : Char → List Item → Char → Prop
  | nil (p : Char) : Laid r p [] p
  | sign {p c q : Char} {rest : List Item} (hs : isSign c = true) (hf : r.follows p c)
    (h : Laid r c rest q) : Laid r p (.sign c :: rest) q
  | run {p q : Char} {t : Text} {rest : List Item} (hf : r.follows p '(') (ht : r.run t)
    (h : Laid r ')' rest q) : Laid r p (.run t :: rest) q
  | group {p m q : Char} {inner rest : List Item} (hf : r.follows p '(') (hg : r.group inner)
    (hinner : Laid r '(' inner m) (hend : r.follows m ')') (h : Laid r ')' rest q) :
    Laid r p (.group inner :: rest) q
  | call {p m q : Char} {name : Text} {inner rest : List Item} (hf : r.follows p '(')
    (hc : r.call name inner) (hinner : Laid r '(' inner m) (hend : r.follows m ')')
    (h : Laid r ')' rest q) : Laid r p (.call name inner :: rest) q

/-- A whole text, or what a group holds. -/
def Level (r : Rules) (items : List Item) : Prop := ∃ q, Laid r '(' items q ∧ r.follows q ')'

namespace Laid

variable {r s : Rules} {p q m : Char} {items others : List Item}

theorem append (h : Laid r p items m) (ho : Laid r m others q) : Laid r p (items ++ others) q := by
  induction h with
  | nil p => exact ho
  | sign hs hf _ ih => exact sign hs hf (ih ho)
  | run hf ht _ ih => exact run hf ht (ih ho)
  | group hf hg hinner hend _ _ ih => exact group hf hg hinner hend (ih ho)
  | call hf hc hinner hend _ _ ih => exact call hf hc hinner hend (ih ho)

theorem of_cons {x : Item} (h : Laid r p (x :: items) q) :
    Laid r p [x] x.ending ∧ Laid r x.ending items q := by
  cases h with
  | sign hs hf h => exact ⟨sign hs hf (nil _), h⟩
  | run hf ht h => exact ⟨run hf ht (nil _), h⟩
  | group hf hg hinner hend h => exact ⟨group hf hg hinner hend (nil _), h⟩
  | call hf hc hinner hend h => exact ⟨call hf hc hinner hend (nil _), h⟩

theorem exists_of_append (h : Laid r p (items ++ others) q) :
    ∃ m, Laid r p items m ∧ Laid r m others q := by
  induction items generalizing p with
  | nil => exact ⟨p, nil p, h⟩
  | cons x rest ih =>
    obtain ⟨hx, h⟩ := h.of_cons
    obtain ⟨m, hm, ho⟩ := ih h
    exact ⟨m, hx.append hm, ho⟩

theorem ending_unique {q' : Char} (h : Laid r p items q) (h' : Laid s p items q') : q = q' := by
  induction h generalizing q' with
  | nil => cases h'; rfl
  | sign _ _ _ ih => cases h' with | sign _ _ h' => exact ih h'
  | run _ _ _ ih => cases h' with | run _ _ h' => exact ih h'
  | group _ _ _ _ _ _ ih => cases h' with | group _ _ _ _ h' => exact ih h'
  | call _ _ _ _ _ _ ih => cases h' with | call _ _ _ _ h' => exact ih h'

theorem imp (h : Laid r p items q) (hf : ∀ a b, r.follows a b → s.follows a b)
    (ht : ∀ t, r.run t → s.run t) (hg : ∀ g, r.group g → s.group g)
    (hc : ∀ n g, r.call n g → s.call n g) : Laid s p items q := by
  induction h with
  | nil p => exact nil p
  | sign hs hfol _ ih => exact sign hs (hf _ _ hfol) ih
  | run hfol hrun _ ih => exact run (hf _ _ hfol) (ht _ hrun) ih
  | group hfol hgroup _ hend _ ihinner ih =>
    exact group (hf _ _ hfol) (hg _ hgroup) ihinner (hf _ _ hend) ih
  | call hfol hcall _ hend _ ihinner ih =>
    exact call (hf _ _ hfol) (hc _ _ hcall) ihinner (hf _ _ hend) ih

end Laid

theorem ne_open_of_sign {c : Char} (h : isSign c = true) : c ≠ '(' := by
  rintro rfl
  exact absurd h (by decide)

theorem ne_close_of_sign {c : Char} (h : isSign c = true) : c ≠ ')' := by
  rintro rfl
  exact absurd h (by decide)

theorem Laid.restart {r : Rules} {p q : Char} {items : List Item} (h : Laid r p items q) (p' : Char)
    (hp : ∀ c, c ≠ ')' → r.follows p c → r.follows p' c) :
    ∃ q', Laid r p' items q' ∧ (items ≠ [] → q' = q) := by
  cases h with
  | nil => exact ⟨p', .nil p', fun hne => absurd rfl hne⟩
  | sign hs hf h => exact ⟨q, .sign hs (hp _ (ne_close_of_sign hs) hf) h, fun _ => rfl⟩
  | run hf ht h => exact ⟨q, .run (hp _ (by decide) hf) ht h, fun _ => rfl⟩
  | group hf hg hinner hend h =>
    exact ⟨q, .group (hp _ (by decide) hf) hg hinner hend h, fun _ => rfl⟩
  | call hf hc hinner hend h =>
    exact ⟨q, .call (hp _ (by decide) hf) hc hinner hend h, fun _ => rfl⟩

theorem Laid.ending_eq {r : Rules} {p q : Char} {items : List Item} (h : Laid r p items q)
    (hne : items ≠ []) : q = ')' ∨ isSign q = true := by
  induction h with
  | nil => exact absurd rfl hne
  | @sign _ c _ rest hs _ h ih =>
    by_cases hrest : rest = []
    · subst hrest
      cases h
      exact .inr hs
    · exact ih hrest
  | @run _ _ _ rest _ _ h ih | @group _ _ _ _ rest _ _ _ _ h _ ih
  | @call _ _ _ _ _ rest _ _ _ _ h _ ih =>
    by_cases hrest : rest = []
    · subst hrest
      cases h
      exact .inl rfl
    · exact ih hrest

namespace Rules

/-- Runs and names consist of operand characters. -/
def loose : Rules where
  follows _ _ := True
  run t := t ≠ [] ∧ ∀ c ∈ t, isOperandCharacter c = true
  group _ := True
  call name _ := name ≠ [] ∧ ∀ c ∈ name, isOperandCharacter c = true

/-- Besides, what may follow what. -/
def following (R : Char → Char → Prop) : Rules := { loose with follows := R }

/-- Besides, no operand begins after another or after a factorial. -/
def plain : Rules := { loose with follows := fun p c => c = '(' → p ≠ ')' ∧ p ≠ '!' }

end Rules

/-- Every item is laid out loosely. -/
def Loose (items : List Item) : Prop := ∃ q, Laid .loose '(' items q

theorem Laid.loose {p q : Char} {items : List Item} (h : Laid .loose p items q) : Loose items := by
  obtain ⟨q', hq', -⟩ := h.restart '(' fun _ _ _ => trivial
  exact ⟨q', hq'⟩

theorem loose_nil : Loose [] := ⟨'(', .nil _⟩

theorem loose_append {items others : List Item} :
    Loose (items ++ others) ↔ Loose items ∧ Loose others := by
  constructor
  · rintro ⟨q, h⟩
    obtain ⟨m, hm, ho⟩ := h.exists_of_append
    exact ⟨⟨m, hm⟩, ho.loose⟩
  · rintro ⟨⟨m, hm⟩, q, ho⟩
    obtain ⟨q', hq', -⟩ := ho.restart m fun _ _ _ => trivial
    exact ⟨q', hm.append hq'⟩

theorem loose_cons {x : Item} {rest : List Item} : Loose (x :: rest) ↔ Loose [x] ∧ Loose rest := by
  rw [← List.singleton_append, loose_append]

theorem loose_group {inner : List Item} : Loose [.group inner] ↔ Loose inner := by
  constructor
  · rintro ⟨q, h⟩
    cases h with
    | group _ _ hinner _ _ => exact ⟨_, hinner⟩
  · rintro ⟨m, hm⟩
    exact ⟨')', .group trivial trivial hm trivial (.nil _)⟩

theorem Loose.subset {items others : List Item} (h : Loose items) (hsub : ∀ x ∈ others, x ∈ items) :
    Loose others := by
  induction others with
  | nil => exact loose_nil
  | cons x rest ih =>
    have hx : Loose [x] := by
      obtain ⟨first, last, rfl⟩ := List.append_of_mem (hsub x List.mem_cons_self)
      exact (loose_cons.mp (loose_append.mp h).2).1
    exact loose_cons.mpr ⟨hx, ih fun y hy => hsub y (List.mem_cons_of_mem _ hy)⟩

section Characters

variable {c : Char}

theorem ne_open_of_operand (h : isOperandCharacter c = true) : c ≠ '(' := by
  rintro rfl
  exact absurd h (by decide)

theorem ne_close_of_operand (h : isOperandCharacter c = true) : c ≠ ')' := by
  rintro rfl
  exact absurd h (by decide)

theorem not_operand_of_sign (h : isSign c = true) : isOperandCharacter c = false := by
  simp only [isSign, List.contains_iff_mem, List.mem_cons, List.not_mem_nil, or_false] at h
  rcases h with rfl | rfl | rfl | rfl | rfl | rfl | rfl <;> decide

theorem not_sign_of_operand (h : isOperandCharacter c = true) : isSign c = false := by
  by_contra hs
  rw [Bool.not_eq_false] at hs
  rw [not_operand_of_sign hs] at h
  cases h

end Characters

theorem nested_of_forall {P : Char → Prop} {t : Text} (hop : ∀ c ∈ t, isOperandCharacter c = true)
    (hP : ∀ c, isOperandCharacter c = true → P c) : Nested '(' ')' P t := by
  induction t with
  | nil => exact .nil P
  | cons c t ih =>
    have hc := hop c List.mem_cons_self
    exact .char (ne_open_of_operand hc) (ne_close_of_operand hc) (hP c hc)
      (ih fun d hd => hop d (List.mem_cons_of_mem _ hd))

theorem Laid.nested {p q : Char} {items : List Item} (h : Laid .loose p items q) {P : Char → Prop}
    (hop : ∀ c, isOperandCharacter c = true → P c) (hsign : ∀ c, Item.sign c ∈ items → P c) :
    Nested '(' ')' P (textOf items) := by
  induction h generalizing P with
  | nil p => simpa using Nested.nil P
  | @sign p c q rest hs hf _ ih =>
    rw [textOf_sign]
    refine .char (ne_open_of_sign hs) (ne_close_of_sign hs) (hsign c List.mem_cons_self) ?_
    exact ih hop fun d hd => hsign d (List.mem_cons_of_mem _ hd)
  | run hf ht _ ih =>
    rw [textOf_run]
    exact (nested_of_forall ht.2 hop).append
      (ih hop fun d hd => hsign d (List.mem_cons_of_mem _ hd))
  | group hf hg _ hend _ ihinner ih =>
    rw [textOf_group]
    exact .group (ihinner (fun _ _ => trivial) fun _ _ => trivial)
      (ih hop fun d hd => hsign d (List.mem_cons_of_mem _ hd))
  | call hf hc _ hend _ ihinner ih =>
    rw [textOf_call]
    refine (nested_of_forall hc.2 hop).append ?_
    exact .group (ihinner (fun _ _ => trivial) fun _ _ => trivial)
      (ih hop fun d hd => hsign d (List.mem_cons_of_mem _ hd))

/-- What holds of neighbouring characters of a text holds of the neighbouring items of its
layout. -/
theorem Laid.of_isChain {R : Char → Char → Prop} (hopen : ∀ a, R a '(') (hclose : ∀ b, R ')' b)
    {p q : Char} {items : List Item} (h : Laid .loose p items q) {a : Char}
    (hchain : List.IsChain R (a :: (textOf items ++ [')']))) :
    ∃ q', Laid (.following R) a items q' ∧ R q' ')' := by
  have hcons {t : Text} (h : List.IsChain R t) : List.IsChain R (')' :: t) := by
    cases t with
    | nil => exact .singleton _
    | cons c t => exact .cons_cons (hclose c) h
  induction h generalizing a with
  | nil => exact ⟨a, .nil a, by simpa using hchain⟩
  | @sign _ c _ rest hs _ _ ih =>
    rw [textOf_sign, List.cons_append, List.isChain_cons_cons] at hchain
    obtain ⟨q', hq', hend⟩ := ih hchain.2
    exact ⟨q', .sign hs hchain.1 hq', hend⟩
  | @run _ _ t rest _ ht _ ih =>
    have hafter : List.IsChain R (textOf rest ++ [')']) := hchain.tail.suffix (by simp)
    obtain ⟨q', hq', hend⟩ := ih (hcons hafter)
    exact ⟨q', .run (hopen a) ht hq', hend⟩
  | @group _ _ _ inner rest _ _ _ _ _ ihinner ih =>
    have hin : List.IsChain R ('(' :: (textOf inner ++ [')'])) :=
      hchain.infix ⟨[a], textOf rest ++ [')'], by simp⟩
    have hafter : List.IsChain R (textOf rest ++ [')']) :=
      hchain.suffix ⟨a :: '(' :: (textOf inner ++ [')']), by simp⟩
    obtain ⟨m, hm, hmend⟩ := ihinner hin
    obtain ⟨q', hq', hend⟩ := ih (hcons hafter)
    exact ⟨q', .group (hopen a) trivial hm hmend hq', hend⟩
  | @call _ _ _ name inner rest _ hc _ _ _ ihinner ih =>
    have hin : List.IsChain R ('(' :: (textOf inner ++ [')'])) :=
      hchain.infix ⟨a :: name, textOf rest ++ [')'], by simp⟩
    have hafter : List.IsChain R (textOf rest ++ [')']) :=
      hchain.suffix ⟨a :: (name ++ '(' :: (textOf inner ++ [')'])), by simp⟩
    obtain ⟨m, hm, hmend⟩ := ihinner hin
    obtain ⟨q', hq', hend⟩ := ih (hcons hafter)
    exact ⟨q', .call (hopen a) hc hm hmend hq', hend⟩

/-- After a group or a factorial no operand begins. -/
def Closed (a b : Char) : Prop := a = ')' ∨ a = '!' → isOperandCharacter b = false ∧ b ≠ '('

theorem exists_run {P : Char → Prop} {t : Text} (h : Nested '(' ')' P t) :
    ∃ name rest, t = name ++ rest ∧ (∀ c ∈ name, isOperandCharacter c = true) ∧
      (∀ c ∈ rest.head?, isOperandCharacter c = false) ∧ Nested '(' ')' P rest := by
  induction h with
  | nil P => exact ⟨[], [], rfl, by simp, by simp, .nil P⟩
  | @char P c t ho hc hx ht ih =>
    by_cases hop : isOperandCharacter c = true
    · obtain ⟨name, rest, rfl, hname, hhead, hrest⟩ := ih
      exact ⟨c :: name, rest, rfl, by simpa [hop] using hname, hhead, hrest⟩
    · exact ⟨[], c :: t, rfl, by simp, by simpa using hop, .char ho hc hx ht⟩
  | @group P inside t hinside ht _ _ =>
    exact ⟨[], '(' :: (inside ++ ')' :: t), rfl, by simp, by simp [isOperandCharacter],
      .group hinside ht⟩

theorem isChain_group {R : Char → Char → Prop} {inside t : Text}
    (h : List.IsChain R ('(' :: (inside ++ ')' :: t))) :
    List.IsChain R ('(' :: inside) ∧ List.IsChain R (')' :: t) := by
  rw [← List.cons_append] at h
  exact ⟨h.left_of_append, h.right_of_append⟩

/-- Every balanced text of signs, operands and parentheses has a layout; where something is known of
neighbouring characters, it decides what may follow what. -/
theorem exists_laid {R F : Char → Char → Prop}
    (hbegins : ∀ p c, R p c → isOperandCharacter c = true ∨ c = '(' → F p '(')
    (hother : ∀ p c, c ≠ '(' → F p c)
    (hafter : ∀ c, isOperandCharacter c = false → c ≠ '(' → R ')' c) {u : Text}
    (hn : Nested '(' ')' (fun _ => True) u)
    (hchars : ∀ c ∈ u, isOperandCharacter c = true ∨ isSign c = true ∨ c = '(' ∨ c = ')') {p : Char}
    (hchain : List.IsChain R (p :: u)) :
    ∃ items q, textOf items = u ∧ Laid (.following F) p items q := by
  induction hlen : u.length using Nat.strongRecOn generalizing u p with
  | _ n ih =>
    subst hlen
    have part {t : Text} {p : Char} (ht : t.length < u.length) (hsub : ∀ c ∈ t, c ∈ u)
        (hn : Nested '(' ')' (fun _ => True) t) (hchain : List.IsChain R (p :: t)) :
        ∃ items q, textOf items = t ∧ Laid (.following F) p items q :=
      ih t.length ht hn (fun c hc => hchars c (hsub c hc)) hchain rfl
    cases hn with
    | nil => exact ⟨[], p, textOf_nil, .nil p⟩
    | @char _ c t ho hclose _ ht =>
      obtain ⟨hpc, hrest⟩ := List.isChain_cons_cons.mp hchain
      by_cases hop : isOperandCharacter c = true
      · have hbegin : F p '(' := hbegins p c hpc (.inl hop)
        obtain ⟨name, rest, rfl, hname, hhead, hnested⟩ := exists_run ht
        have hrun : ∀ d ∈ c :: name, isOperandCharacter d = true := by simpa [hop] using hname
        have hchainRest : List.IsChain R rest := hrest.suffix (List.suffix_append (c :: name) rest)
        cases hnested with
        | nil => exact ⟨[.run (c :: name)], ')', by simp, .run hbegin ⟨by simp, hrun⟩ (.nil _)⟩
        | @char _ d rest hdo hdc _ hnested =>
          obtain ⟨items, q, htext, hlaid⟩ :=
            part (by simp only [List.length_cons, List.length_append]; omega)
              (fun x hx => by simp at hx ⊢; tauto)
              (.char hdo hdc trivial hnested)
              (List.isChain_cons_cons.mpr ⟨hafter d (hhead d (by simp)) hdo, hchainRest⟩)
          refine ⟨.run (c :: name) :: items, q, ?_, .run hbegin ⟨by simp, hrun⟩ hlaid⟩
          rw [textOf_run, htext]
          rfl
        | @group _ inside rest hinside hnested =>
          obtain ⟨hin, hout⟩ := isChain_group hchainRest
          obtain ⟨inner, m, hinner, hlaidInner⟩ :=
            part (by simp only [List.length_cons, List.length_append]; omega)
              (fun x hx => by simp [hx]) hinside hin
          obtain ⟨items, q, htext, hlaid⟩ :=
            part (by simp only [List.length_cons, List.length_append]; omega)
              (fun x hx => by simp [hx]) hnested hout
          refine ⟨.call (c :: name) inner :: items, q, by simp [hinner, htext], ?_⟩
          exact .call hbegin ⟨by simp, hrun⟩ hlaidInner (hother m ')' (by decide)) hlaid
      · have hsign : isSign c = true := by
          rcases hchars c List.mem_cons_self with h | h | h | h
          · exact absurd h hop
          · exact h
          · exact absurd h ho
          · exact absurd h hclose
        obtain ⟨items, q, htext, hlaid⟩ := part (by simp) (fun x hx => by simp [hx]) ht hrest
        exact ⟨.sign c :: items, q, by simp [htext], .sign hsign (hother p c ho) hlaid⟩
    | @group _ inside t hinside ht =>
      obtain ⟨hpc, hrest⟩ := List.isChain_cons_cons.mp hchain
      obtain ⟨hin, hout⟩ := isChain_group hrest
      obtain ⟨inner, m, hinner, hlaidInner⟩ :=
        part (by simp only [List.length_cons, List.length_append]; omega) (fun x hx => by simp [hx])
          hinside hin
      obtain ⟨items, q, htext, hlaid⟩ :=
        part (by simp only [List.length_cons, List.length_append]; omega)
          (fun x hx => by simp [hx]) ht hout
      refine ⟨.group inner :: items, q, by simp [hinner, htext], ?_⟩
      exact .group (hbegins p '(' hpc (.inr rfl)) trivial hlaidInner
        (hother m ')' (by decide)) hlaid

section

variable {u : Text} (hn : Nested '(' ')' (fun _ => True) u)
  (hchars : ∀ c ∈ u, isOperandCharacter c = true ∨ isSign c = true ∨ c = '(' ∨ c = ')')
include hn hchars

theorem exists_layout {p : Char} (hchain : List.IsChain Closed (p :: u)) :
    ∃ items q, textOf items = u ∧ Laid .plain p items q := by
  refine exists_laid (fun p c hpc hc _ => ?_) (fun p c hc he => absurd he hc)
    (fun c hc ho _ => ⟨hc, ho⟩) hn hchars hchain
  constructor <;> rintro rfl <;> simp [Closed] at hpc <;> simp [hpc] at hc

theorem exists_loose : ∃ items, textOf items = u ∧ Loose items := by
  have hchain : List.IsChain (fun _ _ : Char => True) ('(' :: u) :=
    (List.pairwise_of_forall fun _ _ => trivial).isChain
  obtain ⟨items, q, htext, hlaid⟩ :=
    exists_laid (F := fun _ _ => True) (fun _ _ _ _ => trivial) (fun _ _ _ => trivial)
      (fun _ _ _ => trivial) hn hchars hchain
  exact ⟨items, htext, q, hlaid⟩

end

end Abacus
