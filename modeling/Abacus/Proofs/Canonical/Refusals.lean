import Abacus.Proofs.Canonical.Dividing

/-! What can still be wrong with a canonical text when its tree is built: the second argument of a
series is no name, or a word holds a point. Its parts have the forms of canonical texts again, so
nothing else is found on the way down. -/

namespace Abacus

/-- The text stands in the other one, and there is no part of a longer word. -/
def StandsIn (u n : Text) : Prop :=
  ∃ left right, n = left ++ (u ++ right) ∧ (∀ c ∈ left.getLast?, isOperandCharacter c = false) ∧
    ∀ c ∈ right.head?, isOperandCharacter c = false

/-- What the form of a text does not rule out, with the place in the text where it is wrong. -/
inductive Remains (v : Vocabulary) (n : Text) : ReadError → Prop
  | notAnIndex {k : Series} {inside first second : Text} {rest : List Text} {found : Expr}
    (hseries : v.library.find? k.name = some (.series k))
    (hplace : StandsIn (k.name ++ '(' :: (inside ++ [')'])) n)
    (hargs : splitAtTop ',' inside = first :: second :: rest)
    (hsecond : Expr.build v second = .ok found) (hname : ∀ name, found ≠ .identifier name) :
    Remains v n (.notAnIndex k.name found)
  | notUnderstood {word : Text} (hplace : StandsIn word n)
    (hchars : ∀ c ∈ word, isOperandCharacter c = true)
    (hfirst : ∀ c ∈ word.head?, isNameStart c = true) (hpoint : '.' ∈ word) :
    Remains v n (.notUnderstood word)

namespace StandsIn

theorem refl (t : Text) : StandsIn t t := ⟨[], [], by simp, by simp, by simp⟩

theorem trans {t u n : Text} (h : StandsIn t u) (hu : StandsIn u n) : StandsIn t n := by
  obtain ⟨left, right, rfl, hleft, hright⟩ := h
  obtain ⟨before, after, rfl, hbefore, hafter⟩ := hu
  refine ⟨before ++ left, right ++ after, by simp, fun c hc => ?_, fun c hc => ?_⟩
  · rcases List.eq_nil_or_concat' left with rfl | ⟨l, d, rfl⟩
    · exact hbefore c (by simpa using hc)
    · rw [← List.append_assoc, List.getLast?_concat] at hc
      exact hleft c (by simpa using hc)
  · cases right with
    | nil => exact hafter c (by simpa using hc)
    | cons d r => exact hright c hc

theorem mem {u n : Text} (h : StandsIn u n) {c : Char} (hc : c ∈ u) : c ∈ n := by
  obtain ⟨left, right, rfl, -, -⟩ := h
  simp [hc]

end StandsIn

section

variable {v : Vocabulary}

theorem Remains.within {u n : Text} {err : ReadError} (h : Remains v u err)
    (hplace : StandsIn u n) : Remains v n err := by
  cases h with
  | notAnIndex hseries hcall hargs hsecond hname =>
    exact .notAnIndex hseries (hcall.trans hplace) hargs hsecond hname
  | notUnderstood hword hchars hfirst hpoint =>
    exact .notUnderstood (hword.trans hplace) hchars hfirst hpoint

theorem standsIn_left (items : List Item) {c : Char} (hc : isSign c = true) (last : List Item) :
    StandsIn (textOf items) (textOf (items ++ .sign c :: last)) :=
  ⟨[], c :: textOf last, by simp [textOf_append], by simp, by simpa using not_operand_of_sign hc⟩

theorem standsIn_right (items : List Item) {c : Char} (hc : isSign c = true) (last : List Item) :
    StandsIn (textOf last) (textOf (items ++ .sign c :: last)) :=
  ⟨textOf items ++ [c], [], by simp [textOf_append], by simpa using not_operand_of_sign hc, by simp⟩

theorem standsIn_group (inner : List Item) : StandsIn (textOf inner) (textOf [.group inner]) :=
  ⟨['('], [')'], by simp, by simp [isOperandCharacter], by simp [isOperandCharacter]⟩

theorem Arguments.standsIn {args : List (List Item)} {items a : List Item}
    (h : Arguments args items) (ha : a ∈ args) : StandsIn (textOf a) (textOf items) := by
  induction h with
  | none => cases ha
  | last _ _ =>
    obtain rfl := List.mem_singleton.mp ha
    exact .refl _
  | @cons b args items _ _ _ ih =>
    rcases List.mem_cons.mp ha with rfl | ha
    · exact standsIn_left a rfl items
    · exact (ih ha).trans (standsIn_right b rfl items)

theorem standsIn_call (name : Text) (inner : List Item) :
    StandsIn (textOf inner) (textOf [.call name inner]) :=
  ⟨name ++ ['('], [')'], by simp, by simp [isOperandCharacter], by simp [isOperandCharacter]⟩

theorem IsWord.isIdentifier {t : Text} (h : IsWord t) (hlower : ∀ c ∈ t, c.isUpper = false)
    (hpoint : '.' ∉ t) : Abacus.isIdentifier t = true := by
  obtain ⟨c, rest, rfl, hc⟩ := h.first
  have hstart {d : Char} (hmem : d ∈ c :: rest) (hd : isNameStart d = true) : d.isLower = true ∨
      d = '_' := by
    simpa [isNameStart, Char.isAlpha, hlower d hmem] using hd
  rw [Abacus.isIdentifier, Bool.and_eq_true, Bool.or_eq_true, beq_iff_eq, List.all_eq_true]
  refine ⟨hstart List.mem_cons_self hc, fun d hd => ?_⟩
  have hmem : d ∈ c :: rest := List.mem_cons_of_mem _ hd
  simp only [Bool.or_eq_true, beq_iff_eq]
  rcases isOperandCharacter_iff.mp (h.characters d hmem) with hdigit | rfl | hname
  · exact .inl (.inr hdigit)
  · exact absurd hmem hpoint
  · rcases hstart hmem hname with hlow | hunder
    · exact .inl (.inl hlow)
    · exact .inr hunder

end

namespace Expr

variable {v : Vocabulary} {items first last inner : List Item}

/-- The building of this level fails only for what remains. -/
def Refused (v : Vocabulary) (items : List Item) : Prop :=
  FailsOnly (Remains v (textOf items)) (build v (textOf items))

theorem refused_operator {op : Operator} (hop : op ≠ .subtract)
    (h : Loose (first ++ .sign op.symbol :: last)) (hlast : .sign op.symbol ∉ last)
    (hlooser : ∀ c ∈ op.looser, .sign c ∉ first ++ .sign op.symbol :: last) (hl : Refused v first)
    (hr : Refused v last) : Refused v (first ++ .sign op.symbol :: last) := by
  rw [Refused, build_operator hop h hlast hlooser]
  refine .bind (hl.mono fun _ herr => herr.within (standsIn_left first op.isSign_symbol last))
    fun x _ => ?_
  refine .bind (hr.mono fun _ herr => herr.within (standsIn_right first op.isSign_symbol last))
    fun y _ => ?_
  exact .ok _

theorem refused_run {t : Text} (h : Loose [.run t]) (ht : IsValue v t)
    (hlower : ∀ c ∈ t, c.isUpper = false) : Refused v [.run t] := by
  have htext : textOf [.run t] = t := by simp
  rcases build_run_cases (v := v) h ht.1 with ⟨x, hrun⟩ | ⟨c, hrun⟩ | hrun
    | ⟨hword, hname, hrun⟩ <;> rw [Refused, hrun]
  · exact .ok _
  · exact .ok _
  · exact .ok _
  · refine .error (.notUnderstood (htext.symm ▸ .refl t) hword.characters ?_ ?_)
    · obtain ⟨c, rest, rfl, hc⟩ := hword.first
      simpa using hc
    · by_contra hpoint
      exact absurd (hword.isIdentifier hlower hpoint) (by simp [hname])

theorem failsOnly_buildAll {P : ReadError → Prop} {ts : List Text}
    (h : ∀ t ∈ ts, FailsOnly P (build v t)) : FailsOnly P (buildAll v ts) := by
  induction ts with
  | nil =>
    simp only [buildAll]
    exact .ok _
  | cons t rest ih =>
    simp only [buildAll]
    have hrest := ih fun u hu => h u (List.mem_cons_of_mem _ hu)
    exact .bind (h t List.mem_cons_self) fun _ _ => .bind hrest fun _ _ => .ok _

/-- With as many arguments as the name takes, all that may be wrong with a call is the index of a
series. -/
theorem failsOnly_ofCall {name : Text} {arity : Arity} {es : List Expr}
    (harity : v.arity? name = some arity) (hcount : arity.admits es.length = true) :
    FailsOnly (fun err => ∃ k body found limits, v.library.find? name = some (.series k) ∧
      es = body :: found :: limits ∧
      (∀ index, found ≠ .identifier index) ∧ err = .notAnIndex k.name found)
        (ofCall v name es) := by
  unfold Vocabulary.arity? at harity
  unfold ofCall
  cases hlibrary : v.library.find? name with
  | some c =>
    simp only [hlibrary, Option.some.injEq] at harity ⊢
    subst harity
    unfold ofCallable
    rw [if_pos hcount]
    cases c with
    | function f => exact .ok _
    | series k =>
      simp only [ofSeries]
      split
      · exact .ok _
      · next body found limits hfound =>
          exact .error
            ⟨k, body, found, limits, rfl, rfl, fun index he => hfound index (by rw [he]), rfl⟩
      · next hnone =>
        match es with
        | [] | [_] => cases hcount
        | body :: found :: limits => exact absurd rfl (hnone body found limits)
  | none =>
    simp only [hlibrary] at harity ⊢
    obtain ⟨f, hf, rfl⟩ := Option.map_eq_some_iff.mp harity
    have hboth := Bool.and_eq_true_iff.mp hcount
    have hleast : f.arity ≤ es.length := of_decide_eq_true hboth.1
    have hmost : es.length ≤ f.arity := of_decide_eq_true hboth.2
    simp only [hf]
    rw [if_pos (Nat.le_antisymm hmost hleast)]
    exact .ok _

theorem refused_call {name : Text} {args : List (List Item)} {arity : Arity}
    (h : Loose [.call name inner]) (hargs : Arguments args inner)
    (harity : v.arity? name = some arity) (hcount : arity.admits args.length = true)
    (hrefused : ∀ a ∈ args, Refused v a) : Refused v [.call name inner] := by
  have hinner := h.held
  rw [Refused, build_call h hargs]
  refine .bind (failsOnly_buildAll fun t ht => ?_) fun es hes => ?_
  · obtain ⟨a, ha, rfl⟩ := List.mem_map.mp ht
    exact (hrefused a ha).mono fun _ herr =>
      herr.within ((hargs.standsIn ha).trans (standsIn_call name inner))
  · have hbuilt := buildAll_eq_ok.mp hes
    have hlen : es.length = args.length := by simpa using hbuilt.length_eq.symm
    refine (failsOnly_ofCall harity (hlen ▸ hcount)).mono ?_
    rintro _ ⟨k, body, found, limits, hlibrary, rfl, hindex, rfl⟩
    obtain ⟨first, second, rest, hfirst⟩ : ∃ first second rest, args.map textOf =
        first :: second :: rest := by
      match args.map textOf, hbuilt with
      | first :: second :: rest, _ => exact ⟨first, second, rest, rfl⟩
    rw [hfirst] at hbuilt
    obtain ⟨-, hbuilt⟩ := List.forall₂_cons.mp hbuilt
    have hname : k.name = name := Library.name_of_find? hlibrary
    have hne : inner ≠ [] := hargs.ne_nil fun hnone => by
      rw [hnone] at hfirst
      cases hfirst
    subst hname
    refine .notAnIndex hlibrary ?_ ((hargs.splitAtTop hinner hne).trans hfirst)
      (List.forall₂_cons.mp hbuilt).1 hindex
    simpa using StandsIn.refl (textOf [.call k.name inner])

/-- The levels of a canonical text are refused for what remains at most. -/
theorem refused_level (hform : Form items) (hloose : Loose items)
    (hstanding : ∀ x ∈ items, Standing v x) (hlower : ∀ c ∈ textOf items, c.isUpper = false) :
    Refused v items := by
  refine hform.induction (P := fun items => (∀ c ∈ textOf items, c.isUpper = false) →
    Refused v items) ?run ?group ?call ?operator ?negative ?factorial hloose hstanding hlower
  case run => exact fun t h ht hlower => refused_run h ht (by simpa using hlower)
  case group =>
    intro inner h hne ih hlower
    have hplace := standsIn_group inner
    rw [Refused, build_group h hne]
    exact (ih fun c hc => hlower c (hplace.mem hc)).mono fun _ herr => herr.within hplace
  case call =>
    intro name inner args arity h hargs harity hcount ih hlower
    refine refused_call h hargs harity hcount fun a ha => ih a ha fun c hc => hlower c ?_
    exact ((hargs.standsIn ha).trans (standsIn_call name inner)).mem hc
  case operator =>
    intro op first last hop h hafter hlooser ihl ihr hlower
    refine refused_operator hop h hafter hlooser (ihl fun c hc => hlower c ?_)
      (ihr fun c hc => hlower c ?_)
    · exact (standsIn_left first op.isSign_symbol last).mem hc
    · exact (standsIn_right first op.isSign_symbol last).mem hc
  case negative =>
    intro rest h hplus hminus ih hlower
    have hplace : StandsIn (textOf rest) (textOf (.sign '-' :: rest)) := standsIn_right [] rfl rest
    cases hliteral : literal? (textOf (.sign '-' :: rest)) with
    | some e =>
      rw [Refused, build_literal h (by simp) hliteral]
      exact .ok _
    | none =>
      rw [Refused, build_negative h hplus hminus (by rwa [textOf_sign] at hliteral)]
      exact .map _ ((ih fun c hc => hlower c (hplace.mem hc)).mono fun _ herr => herr.within hplace)
  case factorial =>
    intro held h hnone ih hlower
    have hplace := standsIn_left held (show isSign '!' = true from rfl) []
    rw [Refused, build_factorial h hnone]
    exact .map _ ((ih fun c hc => hlower c (hplace.mem hc)).mono fun _ herr => herr.within hplace)

end Expr

namespace Workspace

/-- In every workspace that can be reached, a canonical text has a tree, or the second argument of
one of its series is no name, or one of its words holds a point. -/
theorem build_of_canonical (l : Library) (ops : List Operation) {t n : Text}
    (h : canonical (run l ops).vocabulary t = .ok n) :
    (∃ e, Expr.build (run l ops).vocabulary n = .ok e) ∨
      ∃ err, Expr.build (run l ops).vocabulary n = .error err ∧
        Remains (run l ops).vocabulary n err := by
  obtain ⟨hne, items, rfl, hnormal, hchars, -, -⟩ :=
    exists_normal_of_canonical (wellFormed_run l ops).identified h
  have hitems : items ≠ [] := by
    rintro rfl
    exact hne textOf_nil
  have hrefused : Expr.Refused (run l ops).vocabulary items :=
    Expr.refused_level (hnormal.form hitems) hnormal.isLevel.loose hnormal.standing fun c hc =>
      (hchars c hc).2
  cases hbuild : Expr.build (run l ops).vocabulary (textOf items) with
  | ok e => exact .inl ⟨e, rfl⟩
  | error err =>
    rw [Expr.Refused, hbuild] at hrefused
    exact .inr ⟨err, rfl, hrefused.of_error⟩

/-- The index of this sum is the product of two and a name. -/
theorem build_of_canonical_index :
    let product : Expr := .binary .multiply (.number 2) (.identifier "i".toList)
    canonical (run .full []).vocabulary "sum(i, 2i, 1, 3)".toList = .ok "sum(i,2*i,1,3)".toList ∧
      Expr.build (run .full []).vocabulary "sum(i,2*i,1,3)".toList =
        .error (.notAnIndex "sum".toList product) ∧
      Remains (run .full []).vocabulary "sum(i,2*i,1,3)".toList
        (.notAnIndex "sum".toList product) := by
  intro product
  have hcanonical : canonical (run .full []).vocabulary "sum(i, 2i, 1, 3)".toList =
      .ok "sum(i,2*i,1,3)".toList := by
    with_unfolding_all rfl
  have hrefused : Expr.build (run .full []).vocabulary "sum(i,2*i,1,3)".toList =
      .error (.notAnIndex "sum".toList product) := by
    with_unfolding_all rfl
  refine ⟨hcanonical, hrefused, ?_⟩
  rcases build_of_canonical .full [] hcanonical with ⟨e, hbuild⟩ | ⟨err, hbuild, hremains⟩
  · rw [hrefused] at hbuild
    cases hbuild
  · obtain rfl : ReadError.notAnIndex "sum".toList product = err :=
      Except.error.inj (hrefused.symm.trans hbuild)
    exact hremains

end Workspace

end Abacus
