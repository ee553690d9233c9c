import Mathlib.Data.List.Forall2
import Abacus.Expr.Reading
import Abacus.Proofs.Outcome

/-! How the tree of a text comes from the trees of its parts, one rule for each way in which a text
divides, and the induction over built trees that these rules give. -/

namespace Abacus

namespace Expr

variable {v : Vocabulary} {t : Text}

theorem build_of_error {e : ReadError} (h : Split.ofText (withoutOuterGroups t) = .error e) :
    build v t = .error e := by
  rw [build]
  split <;> simp_all

theorem build_of_leaf {e : Expr} (h : Split.ofText (withoutOuterGroups t) = .ok (.leaf e)) :
    build v t = .ok e := by
  rw [build]
  split <;> simp_all

theorem build_of_negate {u : Text} (h : Split.ofText (withoutOuterGroups t) = .ok (.negate u)) :
    build v t = negate <$> build v u := by
  rw [build]
  split <;> simp_all

theorem build_of_factorial {u : Text}
    (h : Split.ofText (withoutOuterGroups t) = .ok (.factorial u)) :
    build v t = factorial <$> build v u := by
  rw [build]
  split <;> simp_all

theorem build_of_binary {op : Operator} {left right : Text}
    (h : Split.ofText (withoutOuterGroups t) = .ok (.binary op left right)) :
    build v t = (do return binary op (← build v left) (← build v right)) := by
  rw [build]
  split <;> simp_all

theorem build_of_call {name : Text} {args : List Text}
    (h : Split.ofText (withoutOuterGroups t) = .ok (.call name args)) :
    build v t = (do ofCall v name (← buildAll v args)) := by
  rw [build]
  split <;> simp_all

theorem build_congr {u : Text} (h : withoutOuterGroups t = withoutOuterGroups u) :
    build v t = build v u := by
  cases hs : Split.ofText (withoutOuterGroups u) with
  | error e => rw [build_of_error hs, build_of_error (h ▸ hs)]
  | ok s =>
    cases s with
    | leaf e => rw [build_of_leaf hs, build_of_leaf (h ▸ hs)]
    | negate operand => rw [build_of_negate hs, build_of_negate (h ▸ hs)]
    | factorial operand => rw [build_of_factorial hs, build_of_factorial (h ▸ hs)]
    | binary op left right => rw [build_of_binary hs, build_of_binary (h ▸ hs)]
    | call name args => rw [build_of_call hs, build_of_call (h ▸ hs)]

theorem buildAll_eq_ok {ts : List Text} {es : List Expr} :
    buildAll v ts = .ok es ↔ List.Forall₂ (fun t e => build v t = .ok e) ts es := by
  induction ts generalizing es with
  | nil => simp [buildAll, eq_comm]
  | cons t rest ih =>
    simp only [buildAll, bind_eq_ok, pure_eq_ok, Except.ok.injEq, List.forall₂_cons_left_iff, ih]
    constructor
    · rintro ⟨e, he, others, ho, rfl⟩
      exact ⟨e, others, he, ho, rfl⟩
    · rintro ⟨e, others, he, ho, rfl⟩
      exact ⟨e, he, others, ho, rfl⟩

/-- What holds of the trees of the parts of every text and goes over to the tree of the text holds
of every tree that is built. -/
theorem build_induction {P : Text → Expr → Prop}
    (leaf : ∀ t e, Split.ofText (withoutOuterGroups t) = .ok (.leaf e) → P t e)
    (negate : ∀ t u e, Split.ofText (withoutOuterGroups t) = .ok (.negate u) → P u e →
      P t (.negate e))
    (factorial : ∀ t u e, Split.ofText (withoutOuterGroups t) = .ok (.factorial u) → P u e →
      P t (.factorial e))
    (binary : ∀ t op l r x y, Split.ofText (withoutOuterGroups t) = .ok (.binary op l r) → P l x →
      P r y → P t (.binary op x y))
    (call : ∀ t name args es e, Split.ofText (withoutOuterGroups t) = .ok (.call name args) →
      List.Forall₂ P args es → ofCall v name es = .ok e → P t e)
    {t : Text} {e : Expr} (h : build v t = .ok e) : P t e := by
  induction hn : t.length using Nat.strongRecOn generalizing t e with
  | _ n ih =>
    subst hn
    have hle := length_withoutOuterGroups_le t
    have ih' {u : Text} {x : Expr} (hu : u.length < t.length) (hx : build v u = .ok x) : P u x :=
      ih _ hu hx rfl
    cases hs : Split.ofText (withoutOuterGroups t) with
    | error err => simp [build_of_error hs] at h
    | ok s =>
      have hsize := Split.size_ofText hs
      cases s with
      | leaf x =>
        obtain rfl : x = e := by simpa [build_of_leaf hs] using h
        exact leaf t x hs
      | negate u =>
        obtain ⟨x, hx, rfl⟩ := map_eq_ok.mp ((build_of_negate hs).symm.trans h)
        exact negate t u x hs (ih' (by simp only [Split.size] at hsize; omega) hx)
      | factorial u =>
        obtain ⟨x, hx, rfl⟩ := map_eq_ok.mp ((build_of_factorial hs).symm.trans h)
        exact factorial t u x hs (ih' (by simp only [Split.size] at hsize; omega) hx)
      | binary op l r =>
        obtain ⟨x, hx, h'⟩ := bind_eq_ok.mp ((build_of_binary hs).symm.trans h)
        obtain ⟨y, hy, h'⟩ := bind_eq_ok.mp h'
        cases h'
        simp only [Split.size] at hsize
        exact binary t op l r x y hs (ih' (by omega) hx) (ih' (by omega) hy)
      | call name args =>
        obtain ⟨es, hes, he⟩ := bind_eq_ok.mp ((build_of_call hs).symm.trans h)
        refine call t name args es e hs ?_ he
        have hpart (u : Text) (hu : u ∈ args) : u.length < t.length := by
          have := length_lt_totalLength hu
          simp only [Split.size] at hsize
          omega
        have hall := List.forall₂_iff_zip.mp (buildAll_eq_ok.mp hes)
        exact List.forall₂_iff_zip.mpr
          ⟨hall.1, fun hm => ih' (hpart _ (List.of_mem_zip hm).1) (hall.2 hm)⟩

end Expr

end Abacus
