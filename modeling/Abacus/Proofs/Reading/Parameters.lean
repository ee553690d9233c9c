import Abacus.Proofs.Reading.Kept
import Abacus.Proofs.Reading.Trees

/-! A call of a formula by a list of variables is in canonical form as it is typed, and it is read
as this call. A variable that is called `_` is no text of the grammar by itself, but it may be an
argument. -/

namespace Abacus

section Scopes

variable {t : Text}

theorem scan_of_not_mem {scan : Text → Text → Text} {x : Char}
    (hnil : ∀ before, scan before [] = before.reverse)
    (hpush : ∀ {c : Char}, c ≠ x → ∀ before rest, scan before (c :: rest) = scan (c :: before) rest)
    (h : x ∉ t) (before : Text) : scan before t = before.reverse ++ t := by
  induction t generalizing before with
  | nil => simpa using hnil before
  | cons c rest ih =>
    obtain ⟨hc, hrest⟩ := not_or.mp (mt List.mem_cons.mpr h)
    rw [hpush (Ne.symm hc), ih hrest]
    simp

theorem scopeFactorials_of_not_mem (h : '!' ∉ t) : scopeFactorials t = t :=
  scan_of_not_mem (fun _ => by rw [groupFactorials]) groupFactorials_push h []

theorem scopePowers_of_not_mem (h : '^' ∉ t) : scopePowers t = t :=
  scan_of_not_mem (fun _ => by rw [groupPowers]) groupPowers_push h []

theorem groupNegatives_of_not_mem (h : '-' ∉ t) : groupNegatives [] t = t :=
  scan_of_not_mem (fun _ => by rw [groupNegatives]) groupNegatives_push h []

end Scopes

section

variable {v : Vocabulary} {items inner : List Item} {name p : Text} {names : List Text}

/-- A phrase in which no sign has a scope of its own is canonical. -/
theorem IsPhrase.canonical_eq_self (hv : v.Identified) (h : IsPhrase v items)
    (hgroup : ∀ inner, items ≠ [.group inner]) (hscopes : ∀ c ∈ ['!', '^', '-'], c ∉ textOf items) :
    Abacus.canonical v (textOf items) = .ok (textOf items) := by
  have hnegatives : Abacus.scopeNegatives (textOf items) = textOf items := by
    rw [Abacus.scopeNegatives, groupNegatives_of_not_mem (hscopes '-' (by decide))]
    exact replacePair_of_tidied (h.tidied hv).tail.left_of_append (by decide)
  simp only [Abacus.canonical, h.tidy hv, ok_bind,
    scopeFactorials_of_not_mem (hscopes '!' (by decide)), scopePowers_of_not_mem
      (hscopes '^' (by decide)), hnegatives, withoutOuterGroups_textOf (h.loose hv) hgroup]

theorem exists_arguments_of_names (hnames : ∀ p ∈ names, p ≠ []) :
    ∃ inner, Arguments (names.map fun p => [.run p]) inner ∧
      textOf inner = joinWith [','] names := by
  induction names with
  | nil => exact ⟨[], .none, textOf_nil⟩
  | cons p names ih =>
    obtain ⟨inner, hinner, htext⟩ := ih fun p hp => hnames p (List.mem_cons_of_mem _ hp)
    cases names with
    | nil => exact ⟨[.run p], .last (by simp) (by simp), by simp [joinWith]⟩
    | cons q names =>
      refine ⟨.run p :: .sign ',' :: inner, .cons (a := [.run p]) (by simp) hinner (by simp), ?_⟩
      rw [textOf_run, textOf_sign, htext]
      simp [joinWith]

theorem not_mem_joinWith {c : Char} (hcomma : c ≠ ',') (hnames : ∀ p ∈ names, c ∉ p) :
    c ∉ joinWith [','] names := by
  induction names with
  | nil => simp [joinWith]
  | cons p names ih =>
    obtain ⟨hp, hrest⟩ := List.forall_mem_cons.mp hnames
    cases names with
    | nil => simpa [joinWith] using hp
    | cons q names => simpa [joinWith, hp, hcomma] using ih hrest

theorem IsVariable.build (h : IsVariable v p) :
    Expr.build v (textOf [.run p]) = .ok (.identifier p) := by
  have hloose : Loose [.run p] :=
    ⟨')', .run trivial (IsAtom.loose (.inr (isWord_of_isIdentifier h.identifier).1)) (.nil _)⟩
  refine Expr.build_run hloose ?_
  rw [Split.ofText_word hloose (literal?_of_isIdentifier h.identifier) h.notConstant,
    if_pos h.identifier]

theorem isPhrase_call (harity : v.arity? name = some (.exactly names.length))
    (hnames : ∀ p ∈ names, IsVariable v p)
    (hinner : Arguments (names.map fun p => [.run p]) inner) : IsPhrase v [.call name inner] := by
  refine ⟨by simp, by simp, by simp, ')', by simp,
    hinner.laid_call (by decide) harity (by simp [Arity.admits, Arity.exactly]) ?_⟩
  intro a ha q hq
  obtain ⟨p, hp, rfl⟩ := List.mem_map.mp ha
  have hplace : q ∈ unaryPlaces := by rcases hq with rfl | rfl <;> decide
  have hname := hnames p hp
  exact ⟨')', by simp, .run (settled_operand hplace)
    (isKept_of_isIdentifier hname.identifier hname.notCallable) (.nil _)⟩

theorem not_mem_of_isIdentifier {t : Text} (h : isIdentifier t = true) {c : Char}
    (hc : isOperandCharacter c = false) : c ∉ t := by
  intro hmem
  rw [(isWord_of_isIdentifier h).1.characters c hmem] at hc
  cases hc

theorem not_mem_call (hname : isIdentifier name = true) (hnames : ∀ p ∈ names, IsVariable v p)
    (htext : textOf inner = joinWith [','] names) {c : Char} (hc : isOperandCharacter c = false)
    (hother : c ∉ ['(', ')', ',']) : c ∉ textOf [.call name inner] := by
  simp only [List.mem_cons, List.not_mem_nil, or_false, not_or] at hother
  obtain ⟨hopen, hclose, hcomma⟩ := hother
  have hlist := not_mem_joinWith hcomma fun p hp =>
    not_mem_of_isIdentifier (hnames p hp).identifier hc
  simp [not_mem_of_isIdentifier hname hc, hopen, hclose, htext, hlist]

/-- A formula that is called with variables, as many as it has parameters. -/
theorem read_call_of_names (hv : v.Identified) {f : Formula}
    (hlibrary : v.library.find? name = none) (hf : v.formulas.find? name = some f)
    (hcount : f.arity = names.length) (hnames : ∀ p ∈ names, IsVariable v p) :
    Expr.read v (name ++ '(' :: (joinWith [','] names ++ [')'])) =
      .ok (.call name (names.map .identifier)) := by
  have harity : v.arity? name = some (.exactly names.length) := by
    simp [Vocabulary.arity?, hlibrary, hf, hcount]
  have hcallable : v.isCallable name = true := by rw [← arity?_isSome, harity, Option.isSome_some]
  obtain ⟨inner, hinner, htext⟩ := exists_arguments_of_names fun p hp => by
    rintro rfl
    cases (hnames [] hp).identifier
  have hphrase := isPhrase_call harity hnames hinner
  have hscopes : ∀ c ∈ ['!', '^', '-'], c ∉ textOf [.call name inner] := by
    intro c hc
    have hsign : isOperandCharacter c = false ∧ c ∉ ['(', ')', ','] := by
      simp only [List.mem_cons, List.not_mem_nil, or_false] at hc
      rcases hc with rfl | rfl | rfl <;> decide
    exact not_mem_call (hv name hcallable) hnames htext hsign.1 hsign.2
  have hbuilt : Expr.buildAll v ((names.map fun p => [Item.run p]).map textOf) =
      .ok (names.map .identifier) := by
    rw [Expr.buildAll_eq_ok, List.map_map, List.forall₂_map_left_iff, List.forall₂_map_right_iff,
      List.forall₂_same]
    exact fun p hp => (hnames p hp).build
  have hcall : Expr.ofCall v name (names.map .identifier) =
      .ok (.call name (names.map .identifier)) :=
    ofCall_of_isCallTo harity (by simp [Arity.admits, Arity.exactly]) (.formula hlibrary hf)
  have hwhole : name ++ '(' :: (joinWith [','] names ++ [')']) = textOf [.call name inner] := by
    simp [htext]
  calc Expr.read v (name ++ '(' :: (joinWith [','] names ++ [')']))
      = Expr.build v (textOf [.call name inner]) := by
        rw [hwhole, Expr.read, hphrase.canonical_eq_self hv (by simp) hscopes, ok_bind]
    _ = Expr.ofCall v name (names.map .identifier) := by
        rw [Expr.build_call (hphrase.loose hv) hinner, hbuilt, ok_bind]
    _ = .ok (.call name (names.map .identifier)) := hcall

end

end Abacus
