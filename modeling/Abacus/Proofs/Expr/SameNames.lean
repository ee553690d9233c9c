import Mathlib.Data.List.Forall2
import Abacus.Expr.Basic

/-! Trees in which the same names stand free and the same formulas are called, in the same order. A
name is the same as no other tree than itself, since it may be the index of a series. -/

namespace Abacus

namespace Expr

structure SameNames (e e' : Expr) : Prop where
  free (bound : List Text) : e'.freeOccurrences bound = e.freeOccurrences bound
  called : e'.callOccurrences = e.callOccurrences
  identifier (name : Text) : e = .identifier name ↔ e' = .identifier name

namespace SameNames

variable {e e' a a' b b' c : Expr} {es es' : List Expr}

theorem refl (e : Expr) : SameNames e e := ⟨fun _ => rfl, rfl, fun _ => .rfl⟩

theorem symm (h : SameNames e e') : SameNames e' e :=
  ⟨fun bound => (h.free bound).symm, h.called.symm, fun name => (h.identifier name).symm⟩

theorem trans (h : SameNames e e') (h' : SameNames e' b) : SameNames e b :=
  ⟨fun bound => (h'.free bound).trans (h.free bound), h'.called.trans h.called,
    fun name => (h.identifier name).trans (h'.identifier name)⟩

theorem freeVariables_eq (h : SameNames e e') : e'.freeVariables = e.freeVariables :=
  congrArg List.eraseDups (h.free [])

theorem calls_eq (h : SameNames e e') : e'.calls = e.calls := congrArg List.eraseDups h.called

theorem occurrencesAll (h : List.Forall₂ SameNames es es') :
    (∀ bound, freeOccurrencesAll bound es' = freeOccurrencesAll bound es) ∧
      callOccurrencesAll es' = callOccurrencesAll es := by
  induction h with
  | nil => exact ⟨fun _ => rfl, rfl⟩
  | cons h _ ih =>
    simp only [freeOccurrencesAll, callOccurrencesAll, h.free, h.called, ih.1, ih.2,
      implies_true, and_self]

section Congruence

theorem negate (h : SameNames e e') : SameNames e.negate e'.negate :=
  ⟨h.free, h.called, fun _ => by simp⟩

theorem factorial (h : SameNames e e') : SameNames e.factorial e'.factorial :=
  ⟨h.free, h.called, fun _ => by simp⟩

theorem binary (op : Operator) (ha : SameNames a a') (hb : SameNames b b') :
    SameNames (binary op a b) (binary op a' b') :=
  ⟨fun bound => by simp only [freeOccurrences, ha.free, hb.free],
    by simp only [callOccurrences, ha.called, hb.called], fun _ => by simp⟩

theorem subtract (ha : SameNames a a') (hb : SameNames b b') :
    SameNames (.binary .subtract a b) (.binary .add a' b'.negate) :=
  ⟨fun bound => by simp only [freeOccurrences, ha.free, hb.free],
    by simp only [callOccurrences, ha.called, hb.called], fun _ => by simp⟩

theorem function (f : Function) (h : List.Forall₂ SameNames es es') :
    SameNames (function f es) (function f es') :=
  ⟨(occurrencesAll h).1, (occurrencesAll h).2, fun _ => by simp⟩

theorem call (name : Text) (h : List.Forall₂ SameNames es es') :
    SameNames (call name es) (call name es') :=
  ⟨(occurrencesAll h).1, congrArg (name :: ·) (occurrencesAll h).2, fun _ => by simp⟩

theorem series (k : Series) (index : Text) (h : SameNames e e')
    (hs : List.Forall₂ SameNames es es') :
    SameNames (series k index (e :: es)) (series k index (e' :: es')) :=
  ⟨fun bound => by simp only [freeOccurrences, h.free, (occurrencesAll hs).1],
    by simp only [callOccurrences, callOccurrencesAll, h.called, (occurrencesAll hs).2],
    fun _ => by simp⟩

end Congruence

theorem difference (op : Operator) (ha : SameNames a a') (hb : SameNames b c.negate) :
    SameNames (.binary op a b.negate) (.binary op a' c) :=
  ⟨fun bound => by simp only [freeOccurrences, ha.free, ← hb.free],
    by simp only [callOccurrences, ha.called, ← hb.called], fun _ => by simp⟩

end SameNames

end Expr

end Abacus
