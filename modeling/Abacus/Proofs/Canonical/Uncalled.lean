import Abacus.Proofs.Canonical.Dividing
import Abacus.Proofs.Expr.Variables

/-! In a canonical text a callable name stands before its arguments only, so no variable of a tree
that was read has such a name. -/

namespace Abacus

namespace Expr

variable {v : Vocabulary} {t : Text} {e : Expr}

theorem variableNames_of_run (h : Loose [.run t]) (ht : IsAtom t)
    (hbuild : build v (textOf [.run t]) = .ok e) : ∀ name ∈ e.variableNames, name = t := by
  rcases build_run_cases (v := v) h ht with ⟨x, hrun⟩ | ⟨c, hrun⟩ | hrun | ⟨-, -, hrun⟩ <;>
    rw [hrun] at hbuild <;> cases hbuild
  all_goals simp [variableNames]

/-- No variable in the tree of a level is a callable name. -/
theorem not_callable_of_level {items : List Item} (hform : Form items) (hloose : Loose items)
    (hstanding : ∀ x ∈ items, Standing v x) (hbuild : build v (textOf items) = .ok e) :
    ∀ name ∈ e.variableNames, v.isCallable name = false := by
  refine hform.induction
    (P := fun items => ∀ e, build v (textOf items) = .ok e → ∀ name ∈ e.variableNames,
      v.isCallable name = false)
    ?run ?group ?call ?operator ?negative ?factorial hloose hstanding e hbuild
  case run =>
    intro t h ht e hbuild name hname
    rw [variableNames_of_run h ht.1 hbuild name hname]
    exact ht.2
  case group =>
    intro inner h hne ih e hbuild
    exact ih e ((build_group h hne).symm.trans hbuild)
  case call =>
    intro called inner args arity h hargs _ _ ih e hbuild name hname
    rw [build_call h hargs] at hbuild
    obtain ⟨es, hes, he⟩ := bind_eq_ok.mp hbuild
    obtain ⟨x, hx, hname⟩ := mem_variableNamesAll.mp (variableNames_of_ofCall he hname)
    obtain ⟨i, hi, rfl⟩ := List.getElem_of_mem hx
    have hall := buildAll_eq_ok.mp hes
    have hlen := hall.length_eq
    have hi' : i < args.length := by simpa [← hlen] using hi
    exact ih args[i] (List.getElem_mem hi') es[i] (by simpa using hall.get (by omega) hi) name hname
  case operator =>
    intro op first last hop h hafter hlooser ihl ihr e hbuild name hname
    rw [build_operator hop h hafter hlooser] at hbuild
    obtain ⟨x, hx, hbuild⟩ := bind_eq_ok.mp hbuild
    obtain ⟨y, hy, hbuild⟩ := bind_eq_ok.mp hbuild
    cases hbuild
    exact (List.mem_append.mp hname).elim (ihl x hx name) (ihr y hy name)
  case negative =>
    intro rest h hplus hminus ih e hbuild
    cases hliteral : literal? (textOf (.sign '-' :: rest)) with
    | some x =>
      rw [build_literal h (by simp) hliteral] at hbuild
      cases hbuild
      simp [variableNames_of_literal? hliteral]
    | none =>
      rw [build_negative h hplus hminus (by rwa [textOf_sign] at hliteral)] at hbuild
      obtain ⟨x, hx, rfl⟩ := map_eq_ok.mp hbuild
      exact ih x hx
  case factorial =>
    intro held h hnone ih e hbuild
    rw [build_factorial h hnone] at hbuild
    obtain ⟨x, hx, rfl⟩ := map_eq_ok.mp hbuild
    exact ih x hx

theorem not_callable_of_read (hv : v.Identified) (h : read v t = .ok e) :
    ∀ name ∈ e.variableNames, v.isCallable name = false := by
  obtain ⟨n, hn, hbuild⟩ := bind_eq_ok.mp h
  obtain ⟨hne, items, rfl, hnormal, -⟩ := exists_normal_of_canonical hv hn
  have hitems : items ≠ [] := by
    rintro rfl
    exact hne textOf_nil
  exact not_callable_of_level (hnormal.form hitems) hnormal.isLevel.loose hnormal.standing hbuild

end Expr

end Abacus
