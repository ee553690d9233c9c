import Abacus.Proofs.Canonical.Dividing
import Abacus.Proofs.Naming.Words
import Abacus.Proofs.Text.TopLevel

/-! The names of a tree in their order. A tree has the names of the text that it is built from, in
the order of the text, so its free names come in the order in which they are first read. -/

namespace Abacus

namespace Expr

mutual

/-- The names from left to right, each with whether it stands free there. The index of a series
comes after the body. -/
def places (bound : List Text) : Expr → List (Text × Bool)
  | number _ => []
  | constant c => [(c.name, false)]
  | identifier name => [(name, !bound.contains name)]
  | negate operand | factorial operand => operand.places bound
  | binary _ left right => left.places bound ++ right.places bound
  | function f args => (f.name, false) :: placesAll bound args
  | series s index [] => [(s.name, false), (index, false)]
  | series s index (body :: limits) =>
    (s.name, false) :: (body.places (index :: bound) ++ (index, false) :: placesAll bound limits)
  | call name args => (name, false) :: placesAll bound args

def placesAll (bound : List Text) : List Expr → List (Text × Bool)
  | [] => []
  | e :: rest => e.places bound ++ placesAll bound rest

end

/-- The names from left to right. -/
def names (e : Expr) : List Text := (e.places []).map Prod.fst

def namesAll (es : List Expr) : List Text := (placesAll [] es).map Prod.fst

mutual

theorem map_fst_places (bound bound' : List Text) :
    ∀ e : Expr, (e.places bound).map Prod.fst = (e.places bound').map Prod.fst
  | number _ | constant _ | identifier _ | series _ _ [] => rfl
  | negate operand | factorial operand => map_fst_places bound bound' operand
  | binary _ left right => by
    simp only [places, List.map_append, map_fst_places bound bound' left,
      map_fst_places bound bound' right]
  | function f args => by simp only [places, List.map_cons, map_fst_placesAll bound bound' args]
  | series s index (body :: limits) => by
    simp only [places, List.map_cons, List.map_append, map_fst_places (index :: bound)
      (index :: bound') body, map_fst_placesAll bound bound' limits]
  | call name args => by simp only [places, List.map_cons, map_fst_placesAll bound bound' args]

theorem map_fst_placesAll (bound bound' : List Text) :
    ∀ es : List Expr, (placesAll bound es).map Prod.fst = (placesAll bound' es).map Prod.fst
  | [] => rfl
  | e :: rest => by
    simp only [placesAll, List.map_append, map_fst_places bound bound' e,
      map_fst_placesAll bound bound' rest]

end

mutual

theorem freeOccurrences_eq (bound : List Text) :
    ∀ e : Expr, e.freeOccurrences bound = ((e.places bound).filter Prod.snd).map Prod.fst
  | number _ | constant _ | series _ _ [] => by simp [freeOccurrences, places]
  | identifier name => by
    by_cases h : name ∈ bound <;> simp [freeOccurrences, places, h]
  | negate operand | factorial operand => freeOccurrences_eq bound operand
  | binary _ left right => by
    simp only [freeOccurrences, places, List.filter_append, List.map_append,
      freeOccurrences_eq bound left, freeOccurrences_eq bound right]
  | function f args => by simp [freeOccurrences, places, freeOccurrencesAll_eq bound args]
  | series s index (body :: limits) => by
    simp [freeOccurrences, places, freeOccurrences_eq (index :: bound) body,
      freeOccurrencesAll_eq bound limits]
  | call name args => by simp [freeOccurrences, places, freeOccurrencesAll_eq bound args]

theorem freeOccurrencesAll_eq (bound : List Text) :
    ∀ es : List Expr, freeOccurrencesAll bound es =
      ((placesAll bound es).filter Prod.snd).map Prod.fst
  | [] => rfl
  | e :: rest => by
    simp only [freeOccurrencesAll, placesAll, List.filter_append, List.map_append,
      freeOccurrences_eq bound e, freeOccurrencesAll_eq bound rest]

end

theorem names_binary (op : Operator) (left right : Expr) :
    (binary op left right).names = left.names ++ right.names := by
  simp [names, places]

theorem namesAll_cons (e : Expr) (rest : List Expr) :
    namesAll (e :: rest) = e.names ++ namesAll rest := by
  simp [namesAll, names, placesAll]

theorem names_series (s : Series) (index : Text) (body : Expr) (limits : List Expr) :
    (series s index (body :: limits)).names =
      s.name :: (body.names ++ index :: namesAll limits) := by
  simp [names, namesAll, places, map_fst_places [index] [] body]

theorem names_of_ofCall {v : Vocabulary} {name : Text} {args : List Expr} {e : Expr}
    (h : ofCall v name args = .ok e) : e.names = name :: namesAll args := by
  unfold ofCall at h
  split at h
  · next c hc =>
    rw [← Library.name_of_find? hc]
    unfold ofCallable at h
    split at h
    · split at h
      · cases h
        rfl
      · unfold ofSeries at h
        split at h <;> cases h
        next body index limits =>
        rw [names_series, namesAll_cons, namesAll_cons]
        rfl
    · cases h
  · split at h
    · split at h <;> cases h
      rfl
    · cases h

theorem isCallable_of_ofCall {v : Vocabulary} {name : Text} {args : List Expr} {e : Expr}
    (h : ofCall v name args = .ok e) : v.isCallable name = true := by
  unfold ofCall at h
  split at h
  · next c hc => simp [Vocabulary.isCallable, hc]
  · split at h
    · next f hf => simp [Vocabulary.isCallable, Registry.contains, hf]
    · cases h

end Expr

/-- How a text is put together from the parts that it divides into. -/
inductive Split.Makes : Split → Text → Prop
  | literal {t : Text} {e : Expr} (h : literal? t = some e) : Makes (.leaf e) t
  | constant (c : Constant) : Makes (.leaf (.constant c)) c.name
  | identifier {t : Text} (h : isIdentifier t = true) : Makes (.leaf (.identifier t)) t
  | negate (t : Text) : Makes (.negate t) ('-' :: t)
  | factorial (t : Text) : Makes (.factorial t) (t ++ ['!'])
  | binary (op : Operator) (left right : Text) :
    Makes (.binary op left right) (left ++ op.symbol :: right)
  | call (name inside : Text) :
    Makes (.call name (argumentsIn inside)) (name ++ '(' :: (inside ++ [')']))

namespace Split

theorem makes_of_atOperator? {op : Operator} {t : Text} {s : Split}
    (h : atOperator? op t = some s) : Makes s t := by
  obtain ⟨⟨left, right⟩, hp, rfl⟩ := Option.map_eq_some_iff.mp h
  rw [splitAtLast?_eq_some hp]
  exact .binary op left right

theorem makes_of_atSign? {t : Text} {s : Split} (h : atSign? t = some s) : Makes s t := by
  unfold atSign? at h
  split at h <;> cases h
  exact .negate _

theorem makes_of_ofAtom {t : Text} {s : Split} (h : ofAtom t = .ok s) : Makes s t := by
  unfold ofAtom at h
  split at h
  · next c hc =>
    cases h
    have hname := List.find?_some hc
    rw [← eq_of_beq hname]
    exact .constant c
  · split at h
    · split at h <;> cases h
      next hid => exact .identifier hid
    · next c rest hdrop =>
      split at h
      · cases h
      · next inside hgroup =>
        cases h
        have hopen : c = '(' := by
          have hhead := List.head?_dropWhile_not (· != '(') t
          rw [hdrop] at hhead
          simpa using hhead
        have htext := List.takeWhile_append_dropWhile (p := (· != '(')) (l := t)
        rw [hdrop, splitGroup_eq_some hgroup, hopen] at htext
        conv => rhs; rw [← htext]
        exact .call _ inside
      · cases h

theorem makes_of_ofFactorial {t : Text} {s : Split} (h : ofFactorial t = .ok s) : Makes s t := by
  unfold ofFactorial at h
  split at h
  · next operand hp =>
    cases h
    rw [splitAtLast?_eq_some hp]
    exact .factorial operand
  · cases h
  · exact makes_of_ofAtom h

theorem makes_of_ofText {t : Text} {s : Split} (h : ofText t = .ok s) : Makes s t := by
  unfold ofText at h
  split at h
  · cases h
  split at h
  · next e he =>
    cases h
    exact .literal he
  split at h
  · next hs =>
    cases h
    obtain ⟨f, hf, hs⟩ := List.exists_of_findSome?_eq_some hs
    simp only [signs, List.mem_cons, List.not_mem_nil, or_false] at hf
    rcases hf with rfl | rfl | rfl | rfl | rfl | rfl
    case inr.inr.inl => exact makes_of_atSign? hs
    all_goals exact makes_of_atOperator? hs
  · exact makes_of_ofFactorial h

end Split

namespace ReadsWords

variable {f : Text → List Text} (hf : ReadsWords f)
include hf

theorem argumentsIn (inside : Text) : ((argumentsIn inside).map f).flatten = f inside := by
  unfold Abacus.argumentsIn
  split
  · next h => simp [h, hf.nil]
  have hpieces (first : Text) (rest : List Text) :
      f (first ++ (rest.map (',' :: ·)).flatten) = f first ++ (rest.map f).flatten := by
    induction rest generalizing first with
    | nil => simp
    | cons piece rest ih =>
      rw [List.map_cons, List.flatten_cons, List.cons_append, hf.split (by decide), ih]
      rfl
  have htext := hpieces (piecesAtTop ',' 0 inside).1 (piecesAtTop ',' 0 inside).2
  rw [piecesAtTop_flatten] at htext
  rw [htext]
  rfl

theorem literal? {t : Text} {e : Expr} (h : literal? t = some e) : f t = [] ∧ e.names = [] := by
  refine ⟨hf.eq_nil fun c hc => ?_, ?_⟩
  · by_contra hs
    rw [Bool.not_eq_false] at hs
    have hdigit : c.isDigit = false := by
      rw [← Bool.not_eq_true]
      intro hd
      rw [isNameStart_digit hd] at hs
      cases hs
    rw [literal?_eq_none hc hdigit] at h
    · cases h
    · simp only [List.mem_cons, List.not_mem_nil, or_false, not_or]
      exact ⟨ne_of_nameStart hs (by decide), ne_of_nameStart hs (by decide),
        ne_of_nameStart hs (by decide)⟩
  · unfold Abacus.literal? at h
    split at h
    · obtain ⟨d, -, rfl⟩ := Option.map_eq_some_iff.mp h
      split <;> rfl
    · obtain ⟨d, -, rfl⟩ := Option.map_eq_some_iff.mp h
      rfl

theorem names_eq {v : Vocabulary} (hv : v.Identified) {t : Text} {e : Expr}
    (h : Expr.build v t = .ok e) : e.names = f t := by
  refine Expr.build_induction (P := fun t e => e.names = f t) ?_ ?_ ?_ ?_ ?_ h
  · intro t e hs
    rw [← hf.withoutOuterGroups]
    generalize Abacus.withoutOuterGroups t = u at hs
    cases Split.makes_of_ofText hs with
    | literal h =>
      obtain ⟨ht, he⟩ := hf.literal? h
      rw [ht, he]
    | constant c =>
      rw [hf.identifier (by cases c <;> decide)]
      rfl
    | identifier h =>
      rw [hf.identifier h]
      rfl
  · intro t u e hs ih
    rw [← hf.withoutOuterGroups]
    generalize Abacus.withoutOuterGroups t = w at hs
    cases Split.makes_of_ofText hs with
    | negate =>
      rw [hf.cons (by decide), ← ih]
      rfl
  · intro t u e hs ih
    rw [← hf.withoutOuterGroups]
    generalize Abacus.withoutOuterGroups t = w at hs
    cases Split.makes_of_ofText hs with
    | factorial =>
      rw [hf.concat (by decide), ← ih]
      rfl
  · intro t op l r x y hs hx hy
    rw [← hf.withoutOuterGroups]
    generalize Abacus.withoutOuterGroups t = w at hs
    cases Split.makes_of_ofText hs with
    | binary =>
      rw [hf.split (by cases op <;> decide), ← hx, ← hy, Expr.names_binary]
  · intro t name args es e hs hall he
    have hargs : Expr.namesAll es = (args.map f).flatten := by
      clear hs he
      induction hall with
      | nil => rfl
      | cons hx _ ih => rw [Expr.namesAll_cons, hx, ih, List.map_cons, List.flatten_cons]
    rw [← hf.withoutOuterGroups]
    generalize Abacus.withoutOuterGroups t = w at hs
    cases Split.makes_of_ofText hs with
    | call _ inside =>
      rw [hf.split (by decide), hf.concat (by decide),
        hf.identifier (hv _ (Expr.isCallable_of_ofCall he)), Expr.names_of_ofCall he, hargs,
        hf.argumentsIn]
      rfl

end ReadsWords

namespace Workspace

/-- In every workspace that can be reached, a tree has the names of its text in order, and its free
names come in the order of their first free places. -/
theorem names_of_build (l : Library) (ops : List Operation) {t : Text} {e : Expr}
    (h : Expr.build (run l ops).vocabulary t = .ok e) :
    (e.places []).map Prod.fst = words t ∧
      e.freeVariables = (((e.places []).filter Prod.snd).map Prod.fst).eraseDups :=
  ⟨readsWords_words.names_eq (wellFormed_run l ops).identified h,
    congrArg List.eraseDups (Expr.freeOccurrences_eq [] e)⟩

theorem names_of_build_series :
    ∃ e : Expr, Expr.build (run .full [.createFormula "f".toList "x^2".toList]).vocabulary
        "(b)-sum(k*f(a),k,b,k)".toList = .ok e ∧
      (e.places []).map Prod.fst =
        ["b".toList, "sum".toList, "k".toList, "f".toList, "a".toList, "k".toList, "b".toList,
          "k".toList] ∧ e.freeVariables = ["b".toList, "a".toList, "k".toList] := by
  have hbuild : Expr.build (run .full [.createFormula "f".toList "x^2".toList]).vocabulary
      "(b)-sum(k*f(a),k,b,k)".toList =
        .ok (.binary .subtract (.identifier "b".toList)
          (.series .sum "k".toList
            [.binary .multiply (.identifier "k".toList) (.call "f".toList [.identifier "a".toList]),
              .identifier "b".toList, .identifier "k".toList])) := by with_unfolding_all rfl
  obtain ⟨hnames, hfree⟩ := names_of_build .full _ hbuild
  exact ⟨_, hbuild, hnames.trans (by decide), hfree.trans (by decide)⟩

end Workspace

end Abacus
