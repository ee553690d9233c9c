import Abacus.Proofs.Decimal.RoundTrip
import Abacus.Proofs.Expr.Legible
import Abacus.Proofs.Expr.Reassociated

/-! A tree is written as a text of the grammar, but for a lone underscore. So the text can be read,
and the tree that it is read as has the same names in the same order. It need not have the same
value: where a product is divided, only its last factor is. -/

namespace Abacus

namespace Strength

/-- The parts that are written without parentheses where this rank is asked for. -/
def ofRank : Nat → Strength
  | 0 | 1 => sum
  | 2 => product
  | 3 => factor
  | 4 => power
  | 5 => factorial
  | _ => atom

theorem ofRank_of_le {P : Strength → Prop} (htighter : ∀ k, k ≠ .atom → P k.next → P k) {m n : Nat}
    (hle : m ≤ n) (h : P (ofRank n)) : P (ofRank m) := by
  induction hle with
  | refl => exact h
  | @step n _ ih =>
    refine ih ?_
    match n, h with
    | 0, h => exact h
    | 1, h => exact htighter .sum (by decide) h
    | 2, h => exact htighter .product (by decide) (htighter .quotient (by decide) h)
    | 3, h => exact htighter .factor (by decide) h
    | 4, h => exact htighter .power (by decide) h
    | 5, h => exact htighter .factorial (by decide) h
    | n + 6, h => exact h

end Strength

section

variable {v : Vocabulary} {k : Strength} {left right t : Text} {a b e : Expr}

namespace Spells

theorem ofAtom (h : Spells v .atom t e) (k : Strength) : Spells v k t e :=
  Strength.ofAtom (P := fun k => Spells v k t e) (fun _ => tighter) h k

theorem signedSummand (hv : v.Identified) (hleft : Spells v .sum left a)
    (hright : Spells v .product ('-' :: right) b) :
    Spells v .sum (left ++ '-' :: right) (.binary .add a b) := by
  have hbegins : BeginsOperand right := by
    rcases hright.begins with ⟨c, rest, he, hc⟩ | ⟨-, rest, he, h⟩
    · obtain ⟨rfl, -⟩ := List.cons.inj he
      simp [isOperandCharacter] at hc
    · obtain ⟨-, rfl⟩ := List.cons.inj he
      exact h
  have hmerged : mergeSigns (left ++ '-' :: right) = mergeSigns (left ++ '+' :: '-' :: right) := by
    rw [hleft.ends.mergeSigns_append, hleft.ends.mergeSigns_append]
    exact congrArg _ ((hbegins.mergeSigns_append ['-']).trans
      (hbegins.mergeSigns_append ['+', '-']).symm)
  refine ⟨hleft.begins.append _, (hright.ends).append left, ?_⟩
  rw [hmerged]
  exact hleft.laysOut.sum hv hleft.ends hright.begins hright.laysOut

end Spells

/-- The text spells a tree with the same value. -/
def Renders (v : Vocabulary) (k : Strength) (t : Text) (e : Expr) : Prop :=
  ∃ e', Expr.Respelled e e' ∧ Spells v k t e'

namespace Renders

theorem tighter (hk : k ≠ .atom) (h : Renders v k.next t e) : Renders v k t e := by
  obtain ⟨e', halike, h⟩ := h
  exact ⟨e', halike, h.tighter hk⟩

theorem ofAtom (h : Renders v .atom t e) (k : Strength) : Renders v k t e :=
  Strength.ofAtom (P := fun k => Renders v k t e) (fun _ => tighter) h k

theorem toSum (h : Renders v k t e) : Renders v .sum t e :=
  Strength.toSum (P := fun k => Renders v k t e) (fun _ => tighter) h

theorem ofRank_of_le {m n : Nat} (hle : m ≤ n) (h : Renders v (.ofRank n) t e) :
    Renders v (.ofRank m) t e :=
  Strength.ofRank_of_le (P := fun k => Renders v k t e) (fun _ => tighter) hle h

theorem parenthesized {s : Nat} (h : Renders v (.ofRank s) t e) (n : Nat) :
    Renders v (.ofRank (n + 1)) (parenthesized (s ≤ n) t) e := by
  by_cases hn : s ≤ n
  · obtain ⟨e', halike, h⟩ := h.toSum
    rw [Abacus.parenthesized, if_pos (decide_eq_true hn)]
    exact ofAtom ⟨e', halike, h.group⟩ _
  · rw [Abacus.parenthesized, if_neg (by simpa using hn)]
    exact h.ofRank_of_le (by omega)

theorem number (hv : v.Identified) {x : Float} (hfinite : x.isFinite = true) :
    Renders v (.ofRank (Expr.number x).strength) (numeral x) (.number x) := by
  obtain ⟨d, hd, hx⟩ := exists_positional hfinite
  obtain ⟨hnan, hinf⟩ := isFinite_iff.mp hfinite
  have hspells := Spells.terminal hv (.number hd)
  by_cases hneg : isNegative x = true
  · rw [if_pos hneg] at hx
    refine ⟨.negate (.number d.toFloat), hx ▸ .negate_number d.toFloat, ?_⟩
    simp only [numeral, Numeral.signed, Expr.strength, hnan, hinf, hneg]
    exact (hspells.ofAtom .power).negative
  · rw [if_neg hneg] at hx
    rw [← hx] at hspells
    refine ⟨.number x, .refl _, ?_⟩
    simp only [numeral, Numeral.signed, Expr.strength, hnan, hinf, hneg]
    exact hspells

theorem negate (h : Renders v (.ofRank 4) t e) : Renders v (.ofRank 3) ('-' :: t) (.negate e) := by
  obtain ⟨e', halike, h⟩ := h
  exact ⟨_, halike.negate, h.negative⟩

theorem factorial (h : Renders v (.ofRank 5) t e) :
    Renders v (.ofRank 5) (t ++ ['!']) (.factorial e) := by
  obtain ⟨e', halike, h⟩ := h
  exact ⟨_, halike.factorial, h.factorial⟩

theorem operator (hv : v.Identified) {op : Operator} (hk : op.strength = k) (hop : op ≠ .subtract)
    (hleft : Renders v k left a) (hright : Renders v k.next right b) :
    Renders v k (left ++ op.symbol :: right) (.binary op a b) := by
  obtain ⟨a', halike, ha⟩ := hleft
  obtain ⟨b', hblike, hb⟩ := hright
  exact ⟨_, .binary op halike hblike, ha.operator hv hk hop hb⟩

theorem subtract (hv : v.Identified) (hleft : Renders v .sum left a)
    (hright : Renders v .product right b) :
    Renders v .sum (left ++ '-' :: right) (.binary .subtract a b) := by
  obtain ⟨a', halike, ha⟩ := hleft
  obtain ⟨b', hblike, hb⟩ := hright
  exact ⟨_, .subtract halike hblike, ha.difference hv hb⟩

theorem signedSummand (hv : v.Identified) (hleft : Renders v .sum left a)
    (hright : Renders v .product ('-' :: right) b) :
    Renders v .sum (left ++ '-' :: right) (.binary .add a b) := by
  obtain ⟨a', halike, ha⟩ := hleft
  obtain ⟨b', hblike, hb⟩ := hright
  exact ⟨_, .binary .add halike hblike, ha.signedSummand hv hb⟩

end Renders

/-- The text of a dividend: a product is divided in its last factor, which stands after the last of
its signs. -/
def RendersDividend (v : Vocabulary) (t : Text) : Expr → Prop
  | .binary .multiply a b => ∃ left right, t = left ++ '*' :: right ∧ Renders v .product left a ∧
      Renders v .quotient right b
  | e => Renders v .quotient t e

namespace RendersDividend

theorem of_not_isProduct (he : e.isProduct = false) (h : Renders v .quotient t e) :
    RendersDividend v t e := by
  unfold RendersDividend
  split
  · cases he
  · exact h

theorem product (hv : v.Identified) (h : RendersDividend v t e) : Renders v .product t e := by
  unfold RendersDividend at h
  split at h
  · obtain ⟨left, right, rfl, ha, hb⟩ := h
    exact ha.operator hv (rfl : Operator.multiply.strength = .product) (by decide) hb
  · exact h.tighter (by decide)

theorem divide (hv : v.Identified) (h : RendersDividend v t a)
    (hright : Renders v .factor right b) :
    RendersDividend v (t ++ '/' :: right) (.associate .divide a b) := by
  have hdivide {t : Text} {a : Expr} (h : Renders v .quotient t a) :
      Renders v .quotient (t ++ '/' :: right) (.binary .divide a b) :=
    h.operator hv (rfl : Operator.divide.strength = .quotient) (by decide) hright
  by_cases hproduct : a.isProduct = true
  · obtain ⟨c, d, rfl⟩ := Expr.exists_of_isProduct hproduct
    obtain ⟨left, last, rfl, hc, hd⟩ := h
    exact ⟨left, last ++ '/' :: right, by simp, hc, hdivide hd⟩
  · have hfirst : Renders v .quotient t a := by
      unfold RendersDividend at h
      split at h
      · exact absurd rfl hproduct
      · exact h
    rw [Expr.associate_of_not_isProduct fun h => hproduct h.2]
    exact of_not_isProduct rfl (hdivide hfirst)

end RendersDividend

/-- The text of the tree is that of the tree with every product divided in its last factor. -/
structure Rendered (v : Vocabulary) (e : Expr) : Prop where
  renders : Renders v (.ofRank e.strength) e.render e.reassociated
  dividend : e.strength = 2 → RendersDividend v e.render e.reassociated

namespace Rendered

theorem of_ne (hne : e.strength ≠ 2) (h : Renders v (.ofRank e.strength) e.render e.reassociated) :
    Rendered v e :=
  ⟨h, fun he => absurd he hne⟩

theorem not_isProduct (h : e.strength ≠ 2) : e.reassociated.isProduct = false := by
  cases e with
  | binary op a b => cases op <;> first | rfl | exact absurd rfl h
  | _ => rfl

/-- Before the sign of a product or a quotient. -/
theorem before (h : Rendered v e) :
    RendersDividend v (parenthesized (e.strength < 2) e.render) e.reassociated := by
  by_cases he : e.strength = 2
  · rw [he]
    exact h.dividend he
  · refine .of_not_isProduct (not_isProduct he) ?_
    have hless : decide (e.strength < 2) = decide (e.strength ≤ 2) :=
      decide_eq_decide.mpr (by omega)
    rw [hless]
    exact (h.renders.parenthesized 2).tighter (by decide)

/-- An operand of a sign is written in parentheses where reading would take it apart without
them. -/
theorem binary (hv : v.Identified) (op : Operator) (ha : Rendered v a) (hb : Rendered v b)
    (hsigned : b.isSigned = true → ∃ rest, b.render = '-' :: rest) :
    Rendered v (.binary op a b) := by
  have hfactor : Renders v .factor _ b.reassociated :=
    (hb.renders.parenthesized 3).ofRank_of_le (m := 3) (by decide)
  have hquotient : Renders v .quotient _ b.reassociated := hfactor.tighter (by decide)
  cases op with
  | add =>
    refine of_ne (by simp [Expr.strength]) ?_
    rw [Expr.render]
    split
    · next hs =>
      obtain ⟨rest, hrest⟩ := hsigned hs
      have hright := hb.renders
      rw [hrest] at hright ⊢
      refine ha.renders.toSum.signedSummand hv (hright.ofRank_of_le (m := 2) ?_)
      rw [show b.strength = 3 from of_decide_eq_true hs]
      decide
    · exact ha.renders.toSum.operator hv (rfl : Operator.add.strength = .sum) (by decide)
        (hb.renders.parenthesized 1)
  | subtract =>
    refine of_ne (by simp [Expr.strength]) ?_
    exact ha.renders.toSum.subtract hv (hfactor.ofRank_of_le (m := 2) (n := 3) (by decide))
  | multiply =>
    have hdividend : RendersDividend v (Expr.binary .multiply a b).render
        (.binary .multiply a.reassociated b.reassociated) :=
      ⟨_, _, by rw [Expr.render], ha.before.product hv, hquotient⟩
    exact ⟨hdividend.product hv, fun _ => hdividend⟩
  | divide =>
    have hdividend : RendersDividend v (Expr.binary .divide a b).render
        (.associate .divide a.reassociated b.reassociated) := by
      rw [Expr.render]
      exact ha.before.divide hv hfactor
    exact ⟨hdividend.product hv, fun _ => hdividend⟩
  | power =>
    have hbase : Renders v .power _ a.reassociated :=
      (ha.renders.parenthesized 4).ofRank_of_le (m := 4) (by decide)
    have hexponent : Renders v .factorial _ b.reassociated :=
      (hb.renders.parenthesized 5).ofRank_of_le (m := 5) (by decide)
    exact .of_ne (by simp [Expr.strength])
      (hbase.operator hv (rfl : Operator.power.strength = .power) (by decide) hexponent)

end Rendered

end

namespace Expr

variable {v : Vocabulary} {l : Library} {e : Expr}

theorem render_of_isSigned (h : e.Legible l) (hsigned : e.isSigned = true) :
    ∃ rest, e.render = '-' :: rest := by
  cases e with
  | number x =>
    have hneg : isNegative x = true := by
      by_contra hneg
      simp [isSigned, strength, hneg] at hsigned
    have hnan : x.isNaN = false := h
    have hwritten : numeral x = '-' :: if x.isInf then ['i', 'n', 'f']
        else Numeral.positional (.shortest (.ofFloat x)) := by
      simp only [numeral, Numeral.signed, hnan, hneg, Bool.false_eq_true, if_false, if_true,
        List.singleton_append]
    exact ⟨_, (render.eq_1 x).trans hwritten⟩
  | negate operand => exact ⟨_, by rw [render]⟩
  | binary op a b => cases op <;> simp [isSigned, strength] at hsigned
  | constant | identifier | factorial | function | series | call =>
    simp [isSigned, strength] at hsigned

mutual

/-- Every tree whose names have their meaning is written as a text of the grammar. -/
theorem rendered (hv : v.Identified) (hconstants : ∀ c : Constant, v.isCallable c.name = false) :
    ∀ e : Expr, Writable v e → Rendered v e
  | number x, h => .of_ne (by simp [strength]; split <;> simp)
    (.number hv (isFinite_iff.mpr ⟨h.legible, h.finite x (by simp [numbers])⟩))
  | constant c, _ =>
    .of_ne (by simp [strength]) ⟨_, .refl _, .terminal hv (.constant c (hconstants c))⟩
  | identifier name, h => .of_ne (by simp [strength])
    ⟨_, .refl _,
      .terminal hv (.name ⟨h.legible.1, h.notCallable name (by simp [variableNames]), h.legible.2⟩)⟩
  | negate operand, h => .of_ne (by simp [strength])
      (.negate ((rendered hv hconstants operand h.negate).renders.parenthesized 3))
  | factorial operand, h =>
    .of_ne (by simp [strength])
      (.factorial ((rendered hv hconstants operand h.factorial).renders.parenthesized 4))
  | binary op left right, h =>
    .binary hv op (rendered hv hconstants left h.binary.1) (rendered hv hconstants right h.binary.2)
      (render_of_isSigned h.binary.2.legible)
  | function f args, h => by
    obtain ⟨others, htexts, halike, hspells⟩ := spells_renderAll hv hconstants args h.function
    obtain ⟨hlibrary, hcount, -⟩ := h.legible
    have harity : v.arity? f.name = some f.arity := by
      simp [Vocabulary.arity?, hlibrary, Callable.arity]
    rw [← length_reassociatedAll, halike.length_eq, List.length_map] at hcount
    refine .of_ne (by simp [strength]) ⟨_, .function f halike, ?_⟩
    rw [render, ← htexts]
    exact .call hv harity hcount hspells (.function hlibrary)
  | series s index [], h => absurd rfl h.legible.2.2.2.1
  | series s index (body :: limits), h => by
    obtain ⟨body', hbody, hspells⟩ :=
      (rendered hv hconstants body (h.series body (by simp))).renders.toSum
    obtain ⟨others, htexts, halike, hothers⟩ := spells_renderAll hv hconstants limits fun e he =>
      h.series e (by simp [he])
    obtain ⟨hlibrary, hcount, ⟨hid, hconstant⟩, -⟩ := h.legible
    have harity : v.arity? s.name = some s.arity := by
      simp [Vocabulary.arity?, hlibrary, Callable.arity]
    have hindex : IsTerminal v index (.identifier index) :=
      .name ⟨hid, h.notCallable index (by simp [variableNames]), hconstant⟩
    let args := (body.render, body') :: (index, .identifier index) :: others
    have hargs : ∀ a ∈ args, Spells v .sum a.1 a.2 :=
      List.forall_mem_cons.mpr
        ⟨hspells, List.forall_mem_cons.mpr ⟨(Spells.terminal hv hindex).ofAtom .sum, hothers⟩⟩
    rw [List.length_cons, ← length_reassociatedAll, halike.length_eq, List.length_map] at hcount
    refine .of_ne (by simp [strength]) ⟨_, .series s index hbody halike, ?_⟩
    rw [render, ← htexts]
    refine Spells.call hv harity ?_ hargs (.series hlibrary)
    exact hcount
  | call name args, h => by
    obtain ⟨others, htexts, halike, hspells⟩ := spells_renderAll hv hconstants args h.call
    obtain ⟨hlibrary, f, hf, hcount⟩ := h.answered (name, args.length) List.mem_cons_self
    have harity : v.arity? name = some (.exactly f.arity) := by
      simp [Vocabulary.arity?, hlibrary, hf]
    have hadmits : (Arity.exactly f.arity).admits others.length = true := by
      rw [← length_reassociatedAll, halike.length_eq, List.length_map] at hcount
      simp [Arity.admits, Arity.exactly, hcount]
    refine .of_ne (by simp [strength]) ⟨_, .call name halike, ?_⟩
    rw [render, ← htexts]
    exact .call hv harity hadmits hspells (.formula hlibrary hf)

theorem spells_renderAll (hv : v.Identified)
    (hconstants : ∀ c : Constant, v.isCallable c.name = false) :
    ∀ es : List Expr, (∀ e ∈ es, Writable v e) → ∃ args : List (Text × Expr),
      args.map Prod.fst = renderAll es ∧
      List.Forall₂ Respelled (reassociatedAll es) (args.map Prod.snd) ∧ ∀ a ∈ args,
      Spells v .sum a.1 a.2
  | [], _ => ⟨[], rfl, .nil, by simp⟩
  | e :: rest, h => by
    obtain ⟨he, hrest⟩ := List.forall_mem_cons.mp h
    obtain ⟨e', halike, hspells⟩ := (rendered hv hconstants e he).renders.toSum
    obtain ⟨args, htexts, hall, hargs⟩ := spells_renderAll hv hconstants rest hrest
    exact ⟨(e.render, e') :: args, by simp [renderAll, htexts], .cons halike hall,
      List.forall_mem_cons.mpr ⟨hspells, hargs⟩⟩

end

/-- The text of such a tree is read as the tree with every product divided in its last factor. -/
theorem read_render_reassociated (hv : v.Identified)
    (hconstants : ∀ c : Constant, v.isCallable c.name = false) (h : Writable v e)
    (hne : e ≠ .identifier ['_']) :
    ∃ e', read v e.render = .ok e' ∧ Respelled e.reassociated e' := by
  obtain ⟨e₁, halike₁, hspells⟩ := (rendered hv hconstants e h).renders.toSum
  have hname : e.reassociated ≠ .identifier ['_'] :=
    (not_congr ((sameNames_reassociated e).identifier _)).mp hne
  obtain ⟨e₂, hread, halike₂⟩ := hspells.read hv ((not_congr (halike₁.identifier _)).mp hname)
  exact ⟨e₂, hread, halike₁.trans halike₂⟩

theorem read_render (hv : v.Identified) (hconstants : ∀ c : Constant, v.isCallable c.name = false)
    (h : Writable v e) (hne : e ≠ .identifier ['_']) :
    ∃ e', read v e.render = .ok e' ∧ SameNames e e' := by
  obtain ⟨e', hread, halike⟩ := read_render_reassociated hv hconstants h hne
  exact ⟨e', hread, (sameNames_reassociated e).trans halike.toSameNames⟩

end Expr

end Abacus
