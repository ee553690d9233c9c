import Abacus.Proofs.Canonical.Shape
import Abacus.Proofs.Evaluation.Alike
import Abacus.Proofs.Reading.Grammar

/-! A change of levels that keeps what they stand for may be made in every level of a layout of the
grammar. -/

namespace Abacus

/-- What a call holds: the arguments between its commas, each with its tree. -/
inductive Lists (v : Vocabulary) (level : List Item → Prop) : List Item → List Expr → Prop
  | none : Lists v level [] []
  | last {a : List Item} {e : Expr} (h : Denotes v level .sum a e) : Lists v level a [e]
  | cons {a items : List Item} {e : Expr} {es : List Expr} (h : Denotes v level .sum a e)
    (hrest : Lists v level items es) (hne : es ≠ []) :
    Lists v level (a ++ .sign ',' :: items) (e :: es)

section

variable {v : Vocabulary} {level next : List Item → Prop} {k : Strength} {items inner : List Item}
  {e : Expr} {es : List Expr}

theorem Lists.exists_arguments (h : Lists v level inner es) : ∃ args : List (List Item × Expr),
    Arguments (args.map Prod.fst) inner ∧ args.map Prod.snd = es ∧ ∀ a ∈ args,
    Denotes v level .sum a.1 a.2 := by
  induction h with
  | none => exact ⟨[], .none, rfl, by simp⟩
  | @last a e h => exact ⟨[(a, e)], .last h.ne_nil h.comma_not_mem, rfl, by simpa using h⟩
  | @cons a items e es h _ hne ih =>
    obtain ⟨args, hargs, rfl, hall⟩ := ih
    have hsome : args.map Prod.fst ≠ [] := by simpa using hne
    exact ⟨(a, e) :: args, .cons h.comma_not_mem hargs hsome, rfl,
      List.forall_mem_cons.mpr ⟨h, hall⟩⟩

theorem Lists.call {name : Text} {arity : Arity} (hlevel : level inner)
    (harity : v.arity? name = some arity) (hcount : arity.admits es.length = true)
    (h : Lists v level inner es) (hcall : IsCallTo v name es e) :
    Denotes v level .atom [.call name inner] e := by
  obtain ⟨args, hargs, rfl, hall⟩ := h.exists_arguments
  exact .call hlevel harity (by simpa using hcount) hargs hall hcall

theorem Lists.single (h : Lists v level inner [e]) : Denotes v level .sum inner e := by
  cases h with
  | last h => exact h
  | cons _ _ hne => exact absurd rfl hne

theorem IsCallTo.respelled {name : Text} {es' : List Expr} (h : IsCallTo v name es e)
    (hes : List.Forall₂ Expr.Respelled es es') :
    ∃ e', IsCallTo v name es' e' ∧ Expr.Respelled e e' := by
  cases h with
  | function hf => exact ⟨_, .function hf, .function _ hes⟩
  | series hs =>
    cases hes with
    | cons hbody hes =>
      cases hes with
      | cons hindex hlimits =>
        obtain rfl := (hindex.identifier _).mp rfl
        exact ⟨_, .series hs, .series _ _ hbody hlimits⟩
  | formula hl hf => exact ⟨_, .formula hl hf, .call _ hes⟩

theorem forall₂_respelled_refl (es : List Expr) : List.Forall₂ Expr.Respelled es es :=
  List.forall₂_same.mpr fun e _ => .refl e

theorem lists_deep {f : List Item → List Item} {args : List (List Item × Expr)}
    (h : Arguments (args.map Prod.fst) inner)
    (hargs : ∀ a ∈ args, ∃ e', Expr.Respelled a.2 e' ∧ Denotes v next .sum (Abacus.deep f a.1) e') :
    ∃ es', List.Forall₂ Expr.Respelled (args.map Prod.snd) es' ∧
      Lists v next (Abacus.deep f inner) es' := by
  induction args generalizing inner with
  | nil =>
    cases h
    exact ⟨[], .nil, by simpa using Lists.none⟩
  | cons a args ih =>
    obtain ⟨⟨e', halike, ha⟩, hrest⟩ := List.forall_mem_cons.mp hargs
    cases args with
    | nil =>
      cases h with
      | last => exact ⟨[e'], .cons halike .nil, .last ha⟩
      | cons _ _ hne => exact absurd rfl hne
    | cons b args =>
      cases h with
      | cons _ h _ =>
        obtain ⟨es', hes, hlists⟩ := ih h hrest
        have hne : es' ≠ [] := by
          rintro rfl
          cases hes
        refine ⟨e' :: es', .cons halike hes, ?_⟩
        rw [deep_append, deep_sign]
        exact .cons ha hlists hne

theorem Denotes.deep {f : List Item → List Item} (hdeep : ∀ g, level g → level (deep f g))
    (hf : ∀ g es, level g → Lists v next g es →
      ∃ es', List.Forall₂ Expr.Respelled es es' ∧ Lists v next (f g) es' ∧ next (f g))
    (h : Denotes v level k items e) :
    ∃ e', Expr.Respelled e e' ∧ Denotes v next k (Abacus.deep f items) e' := by
  have hunsigned {items : List Item} (h : Unsigned items) : Unsigned (Abacus.deep f items) := by
    cases items with
    | nil => simp [Unsigned]
    | cons x rest =>
      cases x with
      | sign c => simpa [Unsigned] using h
      | run t | group inner | call name inner => simp [Unsigned]
  induction h with
  | tighter hk _ ih =>
    obtain ⟨e', halike, h⟩ := ih
    exact ⟨e', halike, .tighter hk h⟩
  | operator hk hop hsign _ _ ihl ihr =>
    obtain ⟨a, ha, hl⟩ := ihl
    obtain ⟨b, hb, hr⟩ := ihr
    refine ⟨_, .binary _ ha hb, ?_⟩
    rw [deep_append, deep_sign]
    exact .operator hk hop (fun h => hunsigned (hsign h)) hl hr
  | difference hsign _ _ ihl ihr =>
    obtain ⟨a, ha, hl⟩ := ihl
    obtain ⟨b, hb, hr⟩ := ihr
    refine ⟨_, .binary _ ha hb.negate, ?_⟩
    rw [deep_append, deep_sign]
    exact .difference (hunsigned hsign) hl hr
  | negative _ ih =>
    obtain ⟨a, ha, h⟩ := ih
    refine ⟨_, ha.negate, ?_⟩
    rw [deep_sign]
    exact .negative h
  | negativeExponent _ _ ihl ihr =>
    obtain ⟨a, ha, hl⟩ := ihl
    obtain ⟨b, hb, hr⟩ := ihr
    refine ⟨_, .binary _ ha hb.negate, ?_⟩
    rw [deep_append, deep_sign, deep_sign]
    exact .negativeExponent hl hr
  | factorial _ ih =>
    obtain ⟨a, ha, h⟩ := ih
    refine ⟨_, ha.factorial, ?_⟩
    rw [deep_append, deep_sign, deep_nil]
    exact .factorial h
  | terminal h =>
    refine ⟨_, .refl _, ?_⟩
    rw [deep_run, deep_nil]
    exact .terminal h
  | group hlevel _ ih =>
    -- the level itself is changed after everything inside of it
    obtain ⟨a, ha, h⟩ := ih
    obtain ⟨es', hes, hlists, hnext⟩ := hf _ [a] (hdeep _ hlevel) (.last h)
    cases hes with
    | cons hfirst hes =>
      cases hes
      refine ⟨_, ha.trans hfirst, ?_⟩
      rw [deep_group, deep_nil]
      exact .group hnext hlists.single
  | call hlevel harity hcount hinner _ hcall ih =>
    obtain ⟨es, hes, hlists⟩ := lists_deep hinner ih
    obtain ⟨es', hes', hlists', hnext⟩ := hf _ es (hdeep _ hlevel) hlists
    obtain ⟨e₁, hcall₁, halike₁⟩ := hcall.respelled hes
    obtain ⟨e₂, hcall₂, halike₂⟩ := hcall₁.respelled hes'
    refine ⟨e₂, halike₁.trans halike₂, ?_⟩
    rw [deep_call, deep_nil]
    refine hlists'.call hnext harity ?_ hcall₂
    rwa [← hes'.length_eq, ← hes.length_eq, List.length_map]

end

/-! A minus in front of a product belongs to its first operand, and as well to all of the
product. -/

section

variable {v : Vocabulary} {level : List Item → Prop} {k : Strength} {items : List Item} {e : Expr}

theorem Denotes.atom_of_power (h : Denotes v level .power items e) (hf : .sign '!' ∉ items)
    (hp : .sign '^' ∉ items) : Denotes v level .atom items e := by
  cases h with
  | tighter _ h => exact h.atom_of_factorial hf
  | @operator op _ _ _ _ _ hk =>
    obtain rfl : op = .power := by cases op <;> first | rfl | cases hk
    simp [Operator.symbol] at hp
  | negativeExponent => simp at hp

/-- The first operand of a product may be exchanged for its negative, and then the product is
negative. -/
theorem Denotes.negated (h : Denotes v level k items e) (hk : k ∈ [.product, .quotient, .factor])
    (hsign : Unsigned items) (hf : .sign '!' ∉ items) (hp : .sign '^' ∉ items) :
    ∃ x rest a, items = x :: rest ∧ x.isOperand = true ∧
      Denotes v level .atom [x] a ∧ (∀ y ∈ rest.head?, ∃ c ∈ ['*', '/'], y = .sign c) ∧
      ∀ y b, Denotes v level .atom [y] b → Expr.Respelled a.negate b →
        ∃ e', Expr.Respelled e.negate e' ∧ Denotes v level k (y :: rest) e' := by
  induction h with
  | @tighter k items e hatom h ih =>
    by_cases hfactor : k = .factor
    · subst hfactor
      have h := Denotes.atom_of_power h hf hp
      obtain ⟨x, rfl, hx⟩ := h.eq_operand
      exact ⟨x, [], e, rfl, hx, h, by simp, fun y b hy hb => ⟨b, hb, hy.ofAtom _⟩⟩
    · obtain ⟨x, rest, a, hitems, hx, ha, hhead, hall⟩ :=
        ih (by revert hk hfactor; cases k <;> decide) hsign hf hp
      refine ⟨x, rest, a, hitems, hx, ha, hhead, fun y b hy hb => ?_⟩
      obtain ⟨e', halike, h⟩ := hall y b hy hb
      exact ⟨e', halike, .tighter hatom h⟩
  | @operator op k left right a b hop hne hplus hl hr ih _ =>
    simp only [List.mem_append, List.mem_cons, not_or] at hf hp
    have hsymbol : op.symbol ∈ ['*', '/'] := by
      revert hop hk
      cases op <;> rintro rfl <;> decide
    obtain ⟨x, rest, c, rfl, hx, hc, hhead, hall⟩ := ih hk hsign.of_append hf.1 hp.1
    refine ⟨x, rest ++ .sign op.symbol :: right, c, rfl, hx, hc, ?_, fun y d hy hd => ?_⟩
    · intro z hz
      cases rest with
      | nil => exact ⟨op.symbol, hsymbol, by simpa using hz.symm⟩
      | cons w rest => exact hhead z hz
    · obtain ⟨a', halike, h⟩ := hall y d hy hd
      have hsigned : Expr.Respelled (.negate (.binary op a b)) (.binary op a.negate b) := by
        cases op with
        | multiply => exact Expr.Respelled.negate_multiply a b
        | divide => exact Expr.Respelled.negate_divide a b
        | add | subtract | power => exact absurd hsymbol (by decide)
      exact ⟨_, hsigned.trans (.binary op halike (.refl b)), .operator hop hne hplus h hr⟩
  | difference | negativeExponent | factorial | terminal | group | call =>
    exact absurd hk (by decide)
  | negative => exact absurd rfl hsign

theorem Denotes.unsigned_rest (h : Denotes v level k (.sign '-' :: items) e)
    (hk : k ∈ [.product, .quotient, .factor]) :
    ∃ a, Denotes v level k items a ∧ Unsigned items ∧ Expr.Respelled e a.negate := by
  generalize hsigned : .sign '-' :: items = signed at h
  induction h generalizing items with
  | @tighter k _ e hatom h ih =>
    by_cases hfactor : k = .factor
    · subst hfactor
      exact absurd (by rw [← hsigned]; rfl) (h.unsigned (by decide))
    · obtain ⟨a, h, hfirst, halike⟩ := ih (by revert hk hfactor; cases k <;> decide) hsigned
      exact ⟨a, .tighter hatom h, hfirst, halike⟩
  | @operator op k left right a b hop hne hplus hl hr ih _ =>
    cases left with
    | nil => exact absurd rfl hl.ne_nil
    | cons x left =>
      obtain ⟨rfl, rfl⟩ := List.cons.inj hsigned
      obtain ⟨a', h, hfirst, halike⟩ := ih hk rfl
      have hmoved : Expr.Respelled (.binary op a'.negate b) (.negate (.binary op a' b)) := by
        cases op with
        | multiply => exact (Expr.Respelled.negate_multiply a' b).symm
        | divide => exact (Expr.Respelled.negate_divide a' b).symm
        | add | subtract | power => exact absurd hk (by rw [← hop]; decide)
      exact ⟨_, .operator hop hne hplus h hr, unsigned_append h.ne_nil hfirst _,
        .trans (.binary op halike (.refl b)) hmoved⟩
  | difference | negativeExponent | factorial | terminal | group | call =>
    exact absurd hk (by decide)
  | @negative _ e h _ =>
    obtain ⟨-, rfl⟩ := List.cons.inj hsigned
    exact ⟨e, .tighter (by decide) h, h.unsigned (by decide), .refl _⟩

end

end Abacus
