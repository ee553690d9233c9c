import Abacus.Proofs.Expr.Building

/-! Where a tree calls formulas, and with how many arguments. In a tree that was built every call
goes to a formula of the vocabulary and has as many arguments as that formula has parameters. -/

namespace Abacus

theorem Library.name_of_find? {l : Library} {name : Text} {c : Callable}
    (h : l.find? name = some c) : c.name = name := by
  have hname := List.find?_some h
  exact eq_of_beq hname

namespace Split

theorem ofText_eq_leaf {t : Text} {e : Expr} (h : ofText t = .ok (.leaf e)) :
    literal? t = some e ∨
      literal? t = none ∧ (∃ c, Constant.ofName? t = some c ∧ e = .constant c) ∨
      literal? t = none ∧ Constant.ofName? t = none ∧ isIdentifier t = true ∧
      e = .identifier t := by
  unfold ofText at h
  split at h
  · cases h
  split at h
  · next x hx =>
    cases h
    exact .inl hx
  · next hnone =>
    split at h
    · next s hs =>
      cases h
      obtain ⟨f, hf, hs⟩ := List.exists_of_findSome?_eq_some hs
      simp only [signs, List.mem_cons, List.not_mem_nil, or_false] at hf
      rcases hf with rfl | rfl | rfl | rfl | rfl | rfl
      case inr.inr.inl => unfold atSign? at hs; split at hs <;> cases hs
      all_goals simp [atOperator?] at hs
    · unfold ofFactorial at h
      split at h
      · cases h
      · cases h
      · unfold ofAtom at h
        split at h
        · next c hc =>
          cases h
          exact .inr (.inl ⟨hnone, c, hc, rfl⟩)
        · next hc =>
          split at h
          · split at h <;> cases h
            next hid => exact .inr (.inr ⟨hnone, hc, hid, rfl⟩)
          · split at h <;> cases h

end Split

namespace Expr

mutual

/-- The formulas called, each time with the number of arguments, from left to right. -/
def callSites : Expr → List (Text × Nat)
  | number _ | constant _ | identifier _ => []
  | negate operand | factorial operand => operand.callSites
  | binary _ left right => left.callSites ++ right.callSites
  | function _ args | series _ _ args => callSitesAll args
  | call name args => (name, args.length) :: callSitesAll args

def callSitesAll : List Expr → List (Text × Nat)
  | [] => []
  | e :: rest => e.callSites ++ callSitesAll rest

end

mutual

theorem callOccurrences_eq : ∀ e : Expr, e.callOccurrences = e.callSites.map Prod.fst
  | number _ | constant _ | identifier _ => rfl
  | negate operand | factorial operand => callOccurrences_eq operand
  | binary _ left right => by
    simp only [callOccurrences, callSites, List.map_append, callOccurrences_eq left,
      callOccurrences_eq right]
  | function _ args | series _ _ args => callOccurrencesAll_eq args
  | call name args => congrArg (name :: ·) (callOccurrencesAll_eq args)

theorem callOccurrencesAll_eq :
    ∀ es : List Expr, callOccurrencesAll es = (callSitesAll es).map Prod.fst
  | [] => rfl
  | e :: rest => by
    simp only [callOccurrencesAll, callSitesAll, List.map_append, callOccurrences_eq e,
      callOccurrencesAll_eq rest]

end

theorem mem_calls {e : Expr} {name : Text} : name ∈ e.calls ↔ ∃ n, (name, n) ∈ e.callSites := by
  simp [calls, callOccurrences_eq]

theorem mem_callSitesAll {es : List Expr} {site : Text × Nat} :
    site ∈ callSitesAll es ↔ ∃ e ∈ es, site ∈ e.callSites := by
  induction es with
  | nil => simp [callSitesAll]
  | cons e rest ih => simp [callSitesAll, ih]

theorem callSites_of_literal? {t : Text} {e : Expr} (h : literal? t = some e) :
    e.callSites = [] := by
  unfold literal? at h
  split at h
  · obtain ⟨d, -, rfl⟩ := Option.map_eq_some_iff.mp h
    split <;> rfl
  · obtain ⟨d, -, rfl⟩ := Option.map_eq_some_iff.mp h
    rfl

/-- A call that the vocabulary can answer: no member of the library has the name, and the formula of
this name has as many parameters as there are arguments. -/
def SiteFits (v : Vocabulary) (site : Text × Nat) : Prop :=
  v.library.find? site.1 = none ∧ ∃ f, v.formulas.find? site.1 = some f ∧ f.arity = site.2

theorem siteFits_of_ofCall {v : Vocabulary} {name : Text} {args : List Expr} {e : Expr}
    (hargs : ∀ site ∈ callSitesAll args, SiteFits v site) (h : ofCall v name args = .ok e) :
    ∀ site ∈ e.callSites, SiteFits v site := by
  unfold ofCall at h
  split at h
  · next c hc =>
    unfold ofCallable at h
    split at h
    · split at h
      · cases h
        exact hargs
      · unfold ofSeries at h
        split at h <;> cases h
        next body index limits =>
        intro site hs
        apply hargs site
        simp only [callSites, callSitesAll, List.mem_append] at hs ⊢
        exact hs.imp_right .inr
    · cases h
  · next hlib =>
    split at h
    · next f hf =>
      split at h
      · next hlen =>
        cases h
        intro site hs
        rcases List.mem_cons.mp hs with rfl | hs
        · exact ⟨hlib, f, hf, hlen.symm⟩
        · exact hargs site hs
      · cases h
    · cases h

theorem siteFits_of_build {v : Vocabulary} {t : Text} {e : Expr} (h : build v t = .ok e) :
    ∀ site ∈ e.callSites, SiteFits v site := by
  refine build_induction (P := fun _ e => ∀ site ∈ e.callSites, SiteFits v site) ?_ ?_ ?_ ?_ ?_ h
  · intro t e hs
    rcases Split.ofText_eq_leaf hs with hl | ⟨-, c, -, rfl⟩ | ⟨-, -, -, rfl⟩
    · simp [callSites_of_literal? hl]
    · simp [callSites]
    · simp [callSites]
  · exact fun t u e _ ih => ih
  · exact fun t u e _ ih => ih
  · intro t op l r x y _ hx hy site hs
    exact (List.mem_append.mp hs).elim (hx site) (hy site)
  · intro t name args es e _ hall he
    refine siteFits_of_ofCall (fun site hs => ?_) he
    obtain ⟨x, hx, hsx⟩ := mem_callSitesAll.mp hs
    obtain ⟨i, hi, rfl⟩ := List.getElem_of_mem hx
    have hlen := hall.length_eq
    exact hall.get (by omega) hi site hsx

/-- A tree that was read calls only what the vocabulary can answer. -/
theorem siteFits_of_read {v : Vocabulary} {t : Text} {e : Expr} (h : read v t = .ok e) :
    ∀ site ∈ e.callSites, SiteFits v site := by
  obtain ⟨n, -, hn⟩ := bind_eq_ok.mp h
  exact siteFits_of_build hn

end Expr

end Abacus
