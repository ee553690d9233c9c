import Abacus.Proofs.Expr.CallSites
import Abacus.Proofs.Expr.Variables
import Abacus.Proofs.Number.Sign

/-! What every tree that was read has by itself, and what a vocabulary has to add for its text to be
read once more: the names must mean there what they mean in the tree. -/

namespace Abacus

namespace Expr

section Definitions

mutual

def numbers : Expr → List Float
  | number value => [value]
  | constant _ | identifier _ => []
  | negate operand | factorial operand => operand.numbers
  | binary _ left right => left.numbers ++ right.numbers
  | function _ args | series _ _ args | call _ args => numbersAll args

def numbersAll : List Expr → List Float
  | [] => []
  | e :: rest => e.numbers ++ numbersAll rest

end

/-- The name of a variable, as far as its characters go. -/
def IsName (t : Text) : Prop := isIdentifier t = true ∧ Constant.ofName? t = none

mutual

/-- Functions and series are members of the library and have as many arguments as they admit, and
numbers and variables can be written down. -/
def Legible (l : Library) : Expr → Prop
  | number value => value.isNaN = false
  | constant _ => True
  | identifier name => IsName name
  | negate operand | factorial operand => operand.Legible l
  | binary _ left right => left.Legible l ∧ right.Legible l
  | function f args => l.find? f.name = some (.function f) ∧ f.arity.admits args.length = true ∧
      AllLegible l args
  | series s index args =>
    l.find? s.name = some (.series s) ∧ s.arity.admits (args.length + 1) = true ∧ IsName index ∧
      args ≠ [] ∧ AllLegible l args
  | call _ args => AllLegible l args

def AllLegible (l : Library) : List Expr → Prop
  | [] => True
  | e :: rest => e.Legible l ∧ AllLegible l rest

end

end Definitions

section Reading

variable {l : Library} {v : Vocabulary} {t : Text} {e : Expr} {es : List Expr}

theorem mem_numbersAll {x : Float} : x ∈ numbersAll es ↔ ∃ e ∈ es, x ∈ e.numbers := by
  induction es with
  | nil => simp [numbersAll]
  | cons e rest ih => simp [numbersAll, ih]

theorem allLegible_iff : AllLegible l es ↔ ∀ e ∈ es, e.Legible l := by
  induction es with
  | nil => simp [AllLegible]
  | cons e rest ih => simp [AllLegible, ih]

theorem legible_of_literal? (h : literal? t = some e) : e.Legible l := by
  unfold literal? at h
  split at h
  · obtain ⟨d, -, rfl⟩ := Option.map_eq_some_iff.mp h
    split
    · exact show (0 : Float).isNaN = false from rfl
    · exact (isNaN_neg _).trans (isNaN_toFloat d)
  · obtain ⟨d, -, rfl⟩ := Option.map_eq_some_iff.mp h
    exact isNaN_toFloat d

theorem legible_of_ofCall {name : Text} {args : List Expr} (hargs : AllLegible v.library args)
    (h : ofCall v name args = .ok e) : e.Legible v.library := by
  unfold ofCall at h
  split at h
  · next c hc =>
    obtain rfl := Library.name_of_find? hc
    unfold ofCallable at h
    split at h
    · next hadmits =>
      split at h
      · cases h
        exact ⟨hc, hadmits, hargs⟩
      · unfold ofSeries at h
        split at h <;> cases h
        next body index limits =>
        obtain ⟨hbody, hindex, hlimits⟩ := hargs
        exact ⟨hc, hadmits, hindex, by simp, hbody, hlimits⟩
    · cases h
  · split at h
    · split at h <;> cases h
      exact hargs
    · cases h

theorem legible_of_read (h : read v t = .ok e) : e.Legible v.library := by
  obtain ⟨n, -, hn⟩ := bind_eq_ok.mp h
  refine build_induction (P := fun _ e => e.Legible v.library) ?_ ?_ ?_ ?_ ?_ hn
  · intro t e hs
    rcases Split.ofText_eq_leaf hs with hl | ⟨-, c, -, rfl⟩ | ⟨-, hconstant, hid, rfl⟩
    · exact legible_of_literal? hl
    · trivial
    · exact ⟨hid, hconstant⟩
  · exact fun t u e _ ih => ih
  · exact fun t u e _ ih => ih
  · exact fun t op l r x y _ hx hy => ⟨hx, hy⟩
  · intro t name args es e _ hall he
    refine legible_of_ofCall (allLegible_iff.mpr fun x hx => ?_) he
    obtain ⟨i, hi, rfl⟩ := List.getElem_of_mem hx
    have hlen := hall.length_eq
    exact hall.get (by omega) hi

end Reading

/-- The names in the tree have in this vocabulary the meaning that they have in the tree, and its
numbers are no infinities. -/
structure Writable (v : Vocabulary) (e : Expr) : Prop where
  legible : e.Legible v.library
  notCallable : ∀ name ∈ e.variableNames, v.isCallable name = false
  answered : ∀ site ∈ e.callSites, SiteFits v site
  finite : ∀ x ∈ e.numbers, x.isInf = false

namespace Writable

variable {v : Vocabulary} {e a b : Expr} {args : List Expr}

theorem negate (h : Writable v (.negate e)) : Writable v e :=
  ⟨h.legible, h.notCallable, h.answered, h.finite⟩

theorem factorial (h : Writable v (.factorial e)) : Writable v e :=
  ⟨h.legible, h.notCallable, h.answered, h.finite⟩

theorem binary {op : Operator} (h : Writable v (.binary op a b)) : Writable v a ∧ Writable v b := by
  obtain ⟨⟨ha, hb⟩, hnames, hsites, hnumbers⟩ := h
  simp only [variableNames, callSites, numbers, List.mem_append] at hnames hsites hnumbers
  exact ⟨⟨ha, fun n hn => hnames n (.inl hn), fun s hs => hsites s (.inl hs),
    fun x hx => hnumbers x (.inl hx)⟩,
    ⟨hb, fun n hn => hnames n (.inr hn), fun s hs => hsites s (.inr hs),
      fun x hx => hnumbers x (.inr hx)⟩⟩

theorem of_all (hlegible : AllLegible v.library args)
    (hnames : ∀ name ∈ variableNamesAll args, v.isCallable name = false)
    (hsites : ∀ site ∈ callSitesAll args, SiteFits v site)
    (hnumbers : ∀ x ∈ numbersAll args, x.isInf = false) : ∀ e ∈ args, Writable v e := fun e he =>
  ⟨allLegible_iff.mp hlegible e he, fun n hn => hnames n (mem_variableNamesAll.mpr ⟨e, he, hn⟩),
    fun s hs => hsites s (mem_callSitesAll.mpr ⟨e, he, hs⟩), fun x hx =>
      hnumbers x (mem_numbersAll.mpr ⟨e, he, hx⟩)⟩

theorem function {f : Function} (h : Writable v (.function f args)) : ∀ e ∈ args, Writable v e :=
  of_all h.legible.2.2 h.notCallable h.answered h.finite

theorem series {s : Series} {index : Text} (h : Writable v (.series s index args)) :
    ∀ e ∈ args, Writable v e :=
  of_all h.legible.2.2.2.2 (fun n hn => h.notCallable n (List.mem_cons_of_mem index hn))
    h.answered h.finite

theorem call {name : Text} (h : Writable v (.call name args)) : ∀ e ∈ args, Writable v e :=
  of_all h.legible h.notCallable (fun s hs => h.answered s (List.mem_cons_of_mem _ hs)) h.finite

end Writable

end Expr

/-! The numbers of arguments in a tree. Every function and every series in a tree that was read has
as many arguments as its name admits, whatever the vocabulary was. -/

namespace Expr

mutual

/-- The index of a series counts as an argument. -/
def Counted : Expr → Prop
  | number _ | constant _ | identifier _ => True
  | negate operand | factorial operand => operand.Counted
  | binary _ left right => left.Counted ∧ right.Counted
  | function f args => f.arity.admits args.length = true ∧ AllCounted args
  | series k _ args => k.arity.admits (args.length + 1) = true ∧ AllCounted args
  | call _ args => AllCounted args

def AllCounted : List Expr → Prop
  | [] => True
  | e :: rest => e.Counted ∧ AllCounted rest

end

mutual

theorem counted_of_legible {l : Library} : ∀ e : Expr, e.Legible l → e.Counted
  | number _, _ | constant _, _ | identifier _, _ => trivial
  | negate operand, h | factorial operand, h => counted_of_legible operand h
  | binary _ left right, h => ⟨counted_of_legible left h.1, counted_of_legible right h.2⟩
  | function _ args, ⟨_, hadmits, hargs⟩ => ⟨hadmits, allCounted_of_allLegible args hargs⟩
  | series _ _ args, ⟨_, hadmits, _, _, hargs⟩ => ⟨hadmits, allCounted_of_allLegible args hargs⟩
  | call _ args, h => allCounted_of_allLegible args h

theorem allCounted_of_allLegible {l : Library} : ∀ es : List Expr, AllLegible l es → AllCounted es
  | [], _ => trivial
  | e :: rest, h => ⟨counted_of_legible e h.1, allCounted_of_allLegible rest h.2⟩

end

theorem counted_of_read {v : Vocabulary} {t : Text} {e : Expr} (h : read v t = .ok e) : e.Counted :=
  counted_of_legible e (legible_of_read h)

end Expr

end Abacus
