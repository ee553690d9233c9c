import Abacus.Proofs.Reading.Meaning
import Abacus.Proofs.Session.Parameters

/-! The value of a variable by its name. A text under which a variable is found is its name but for
capitals and for the white space around it, so it is read as if it were the name itself, and a name
is a text of the grammar. The exception is the name `_`: a text may not be a single sign. -/

namespace Abacus

section

variable {t : Text} {c : Char}

theorem lowercaseOf_of_isBlank (h : isBlank c = true) : lowercaseOf c = [c] := by
  have hall : ∀ n ∈ blankRanges.flatMap fun r => List.range' r.1 (r.2 + 1 - r.1),
      lowercaseOf (Char.ofNat n) = [Char.ofNat n] := by
    decide +kernel
  have hmem : c.toNat ∈ blankRanges.flatMap fun r => List.range' r.1 (r.2 + 1 - r.1) := by
    simp only [isBlank, List.any_eq_true, Bool.and_eq_true, decide_eq_true_eq] at h
    obtain ⟨r, hr, hfirst, hlast⟩ := h
    exact List.mem_flatMap.mpr ⟨r, hr, List.mem_range'_1.mpr ⟨hfirst, by omega⟩⟩
  have hself := hall _ hmem
  rwa [Char.ofNat_toNat] at hself

theorem mem_lowercase (hc : c ∈ t) (hsigma : c ≠ 'Σ') {d : Char} (hd : d ∈ lowercaseOf c) :
    d ∈ lowercase t := by
  suffices hall : ∀ before, d ∈ lowercaseAfter before t from hall []
  induction t with
  | nil => cases hc
  | cons x rest ih =>
    intro before
    rw [lowercaseAfter, List.mem_append]
    rcases List.mem_cons.mp hc with rfl | hrest
    · rw [if_neg hsigma]
      exact .inl hd
    · exact .inr (ih hrest _)

theorem withoutBlanks_trim (t : Text) : withoutBlanks (trim t) = withoutBlanks t := by
  have hstart (t : Text) : withoutBlanks (t.dropWhile isBlank) = withoutBlanks t := by
    induction t with
    | nil => rfl
    | cons c t ih =>
      rw [List.dropWhile_cons]
      split
      · next h => rw [ih, withoutBlanks, withoutBlanks, List.filter_cons_of_neg (by simp [h])]
      · rfl
  have hreverse (t : Text) : withoutBlanks t.reverse = (withoutBlanks t).reverse :=
    List.filter_reverse
  rw [trim, hreverse, hstart, hreverse, hstart, List.reverse_reverse]

namespace Workspace

theorem lowercase_withoutBlanks_of_key (h : isIdentifier (key t) = true) :
    lowercase (withoutBlanks t) = key t := by
  have hcanonical := (isWord_of_isIdentifier h).2.2
  have hblank : ∀ c ∈ trim t, isBlank c = false := by
    intro c hc
    by_contra hb
    rw [Bool.not_eq_false] at hb
    have hsigma : c ≠ 'Σ' := by
      rintro rfl
      exact absurd hb (by decide)
    have hmem : c ∈ key t :=
      mem_lowercase hc hsigma (by rw [lowercaseOf_of_isBlank hb]; exact List.mem_singleton_self c)
    rw [(hcanonical c hmem).1.not_blank] at hb
    cases hb
  rw [← withoutBlanks_trim, withoutBlanks_eq_self hblank, key]

/-- A text is read as the name that it is looked up by. -/
theorem read_key (v : Vocabulary) (h : isIdentifier (key t) = true) :
    Expr.read v (key t) = Expr.read v t := by
  have hself := lowercase_withoutBlanks_eq_self (isWord_of_isIdentifier h).2.2
  simp only [Expr.read, canonical, tidy, hself, lowercase_withoutBlanks_of_key h]

end Workspace

end

namespace Calculator

/-- After all requests, a text under which a variable with a value is found has this value, unless
the name is a lone underscore. -/
theorem calculate_of_variable (σ : Type) [TreeStore σ] [LawfulTreeStore σ] (n : Nat)
    (requests : List Request) {text : Text} {x : Variable} {value : Float}
    (hx : ((ofCapacity n : Calculator σ).respondAll requests).2.workspace.variableNamed? text =
      some x)
    (hvalue : x.value? = some value) (hne : Workspace.key text ≠ ['_']) :
    (((ofCapacity n : Calculator σ).respondAll requests).2.calculate text).1 = .ok value := by
  set s := ((ofCapacity n : Calculator σ).respondAll requests).2
  have hw : s.workspace.WellFormed := wellFormed_respondAll n requests
  have hfresh : s.Fresh := (fresh_ofCapacity n).respondAll requests
  have hname := hw.isVariable hx
  have hreads :
      Reads s.workspace.vocabulary .atom (Workspace.key text) (.identifier (Workspace.key text)) :=
    .leaf (.identifier hname.identifier hne hname.notCallable hname.notConstant)
  obtain ⟨e, hread, halike⟩ := (hreads.ofAtom .sum).read hw.identified
  rw [Workspace.read_key _ hname.identifier] at hread
  have hidentifier : (Expr.identifier (Workspace.key text)).evaluate s.settings s.workspace.formulas
      s.workspace.scope = .ok value := by
    rw [Expr.evaluate, Expr.valueIn, hw.valueOf?_scope,
      show s.workspace.bindings.find? (Workspace.key text) = some x from hx]
    simp [hvalue]
  calc (s.calculate text).1
      = s.evaluate (.ofExpr e) := hfresh.calculate_eq hread
    _ = (e.evaluate s.settings s.workspace.formulas s.workspace.scope).mapError .evaluation := rfl
    _ = .ok value := by
      rw [Expr.evaluate, halike.value, ← Expr.evaluate, hidentifier]
      rfl

/-- The name begins with an underscore, ends as the name of a function, and is typed with a capital
and white space around it. -/
theorem calculate_of_variable_sum :
    let s := ((ofCapacity 1 : Session).respondAll
      [.setVariable "_2sum".toList 3, .setFormula "f".toList "_2sum+x".toList]).2
    s.workspace.variableNamed? " _2Sum\t".toList = some ⟨"_2sum".toList, some 3⟩ ∧
    Workspace.key " _2Sum\t".toList ≠ ['_'] ∧
      (s.calculate " _2Sum\t".toList).1 = .ok 3 := by
  intro s
  have hx : s.workspace.variableNamed? " _2Sum\t".toList = some ⟨"_2sum".toList, some 3⟩ := by
    with_unfolding_all rfl
  have hne : Workspace.key " _2Sum\t".toList ≠ ['_'] := by with_unfolding_all decide
  exact ⟨hx, hne, calculate_of_variable Cache 1 _ hx rfl hne⟩

/-- A lone underscore may have a value, but its name is no text that can be read. -/
theorem calculate_underscore :
    let s := ((ofCapacity 1 : Session).respondAll [.setVariable "_".toList 1]).2
    s.workspace.bindings.find? "_".toList = some ⟨"_".toList, some 1⟩ ∧
      (s.calculate "_".toList).1 = .error (.reading (.onlyASign '_')) := by
  intro s
  exact ⟨by with_unfolding_all rfl, by with_unfolding_all rfl⟩

end Calculator

end Abacus
