import Abacus.Proofs.Expr.CallSites
import Abacus.Proofs.Workspace.CallGraph
import Abacus.Proofs.Workspace.Run

/-! What is true of the registries of a workspace whatever was done to it before: names are free
identifiers, each of them stands for one thing, every call goes to a registered formula with the
right number of arguments, and no formula leads back to itself. That calls stay answered and that
none of them closes a circle depend on each other: a new name closes no circle because nothing calls
it yet. -/

namespace Abacus

open Relation (ReflTransGen)

namespace Workspace

/-- An identifier that is no constant and no member of the library. -/
structure CanName (l : Library) (name : Text) : Prop where
  identifier : isIdentifier name = true
  notConstant : Constant.ofName? name = none
  notInLibrary : l.find? name = none

/-- Every call in the tree has as many arguments as the registered formula of its name has
parameters. -/
def Answers (formulas : Registry Formula) (root : Expr) : Prop :=
  ∀ site ∈ root.callSites, ∃ f, formulas.find? site.1 = some f ∧ f.arity = site.2

structure WellFormed (w : Workspace) : Prop where
  orderedBindings : w.bindings.Ordered
  orderedFormulas : w.formulas.Ordered
  binding : ∀ {name x}, w.bindings.find? name = some x → CanName w.library name ∧ x.name = name
  formula : ∀ {name f}, w.formulas.find? name = some f → CanName w.library name ∧ f.name = name
  apart : ∀ {name x}, w.bindings.find? name = some x → w.formulas.find? name = none
  answered : ∀ {name f}, w.formulas.find? name = some f →
    ∃ root, f.root? = some root ∧ Answers w.formulas root
  acyclic : w.formulas.Acyclic

variable {w next : Workspace} {name text : Text}

theorem newKey_eq_ok {k : Text} (h : w.newKey name = .ok k) :
    CanName w.library k ∧ w.bindings.find? k = none ∧ w.formulas.find? k = none := by
  unfold newKey at h
  split at h
  · cases h
  · next hid =>
    split at h
    · cases h
    · next hres =>
      split at h
      · cases h
      · next hnew =>
        cases h
        simp only [Vocabulary.isReserved, vocabulary, Bool.or_eq_true, not_or,
          Option.not_isSome_iff_eq_none] at hres
        simp only [Registry.contains, Bool.or_eq_true, not_or,
          Option.not_isSome_iff_eq_none] at hnew
        exact ⟨⟨by simpa using hid, hres.1, hres.2⟩, hnew.1, hnew.2⟩

theorem define_eq_ok {k : Text} {f : Formula} (h : w.define k text = .ok f) :
    ∃ root, Expr.read w.vocabulary text = .ok root ∧ k ∉ root.freeVariables ∧
      f = ⟨k, some root⟩ := by
  unfold define at h
  split at h
  · cases h
  · next root hroot =>
    split at h
    · cases h
    · next hfree =>
      cases h
      exact ⟨root, hroot, by simpa using hfree, rfl⟩

/-- A tree that was read in this workspace has all its calls answered. -/
theorem answers_of_read {root : Expr} (hread : Expr.read w.vocabulary text = .ok root) :
    Answers w.formulas root := by
  intro site hsite
  exact (Expr.siteFits_of_read hread site hsite).2

theorem wellFormed_ofLibrary (l : Library) : (ofLibrary l).WellFormed where
  orderedBindings := Registry.ordered_empty
  orderedFormulas := Registry.ordered_empty
  binding h := by simp [ofLibrary] at h
  formula h := by simp [ofLibrary] at h
  apart _ := Registry.find?_empty _
  answered h := by simp [ofLibrary] at h
  acyclic := Registry.acyclic_empty

namespace WellFormed

variable (h : w.WellFormed)
include h

theorem registered_of_calls {a b : Text} (hab : w.formulas.Calls a b) :
    ∃ f, w.formulas.find? b = some f := by
  obtain ⟨f, hf, hb⟩ := hab
  obtain ⟨root, hroot, hans⟩ := h.answered hf
  have hb' : b ∈ root.calls := by simpa [Formula.calls, hroot] using hb
  obtain ⟨n, hn⟩ := Expr.mem_calls.mp hb'
  obtain ⟨g, hg, -⟩ := hans _ hn
  exact ⟨g, hg⟩

theorem not_reach_of_unregistered {a k : Text} (hk : w.formulas.find? k = none) (hne : a ≠ k) :
    ¬ ReflTransGen w.formulas.Calls a k := by
  intro hreach
  rcases hreach.cases_tail with he | ⟨b, -, hb⟩
  · exact hne he.symm
  · obtain ⟨f, hf⟩ := h.registered_of_calls hb
    simp [hk] at hf

theorem withBindings {bindings : Registry Variable} (hord : bindings.Ordered)
    (hb : ∀ {name x}, bindings.find? name = some x → CanName w.library name ∧ x.name = name)
    (hap : ∀ {name x}, bindings.find? name = some x → w.formulas.find? name = none) :
    WellFormed { w with bindings := bindings } where
  orderedBindings := hord
  orderedFormulas := h.orderedFormulas
  binding := hb
  formula := h.formula
  apart := hap
  answered := h.answered
  acyclic := h.acyclic

theorem createVariable {k : Text} (value? : Option Float) (hk : w.newKey name = .ok k) :
    WellFormed { w with bindings := w.bindings.insert k ⟨k, value?⟩ } := by
  obtain ⟨hname, -, hform⟩ := newKey_eq_ok hk
  refine h.withBindings (h.orderedBindings.insert k _) ?_ ?_
  all_goals
    intro other x hx
    rw [Registry.find?_insert] at hx
    split at hx
  · next he =>
    cases hx
    exact ⟨he ▸ hname, he.symm⟩
  · exact h.binding hx
  · next he => exact he ▸ hform
  · exact h.apart hx

theorem updateVariable {x : Variable} (value : Float) (hx : w.variableNamed? name = some x) :
    WellFormed
      { w with bindings := w.bindings.insert (key name) { x with value? := some value } } := by
  refine h.withBindings (h.orderedBindings.insert _ _) ?_ ?_
  all_goals
    intro other y hy
    rw [Registry.find?_insert] at hy
    split at hy
  · next he =>
    cases hy
    exact ⟨he ▸ (h.binding hx).1, he ▸ (h.binding hx).2⟩
  · exact h.binding hy
  · next he => exact he ▸ h.apart hx
  · exact h.apart hy

theorem deleteVariable (name : Text) :
    WellFormed { w with bindings := w.bindings.erase (key name) } := by
  refine h.withBindings (h.orderedBindings.erase _) ?_ ?_
  all_goals
    intro other y hy
    rw [Registry.find?_erase] at hy
    split at hy
  · cases hy
  · exact h.binding hy
  · cases hy
  · exact h.apart hy

theorem clearVariables : w.clearVariables.WellFormed :=
  h.withBindings Registry.ordered_empty (fun hx => by simp at hx) (fun hx => by simp at hx)

/-- A formula may be put under a name that is free for formulas if nothing that it calls leads back
to the name and the formulas that call the name find as many parameters as before. -/
theorem insertFormula {k : Text} {root : Expr} (hk : CanName w.library k)
    (hb : w.bindings.find? k = none) (hread : Expr.read w.vocabulary text = .ok root)
    (hback : ∀ c ∈ root.calls, ¬ ReflTransGen w.formulas.Calls c k)
    (harity : ∀ a, a ≠ k → w.formulas.Calls a k → ∃ former, w.formulas.find? k = some former ∧
      former.arity = (⟨k, some root⟩ : Formula).arity) :
    WellFormed { w with formulas := w.formulas.insert k ⟨k, some root⟩ } where
  orderedBindings := h.orderedBindings
  orderedFormulas := h.orderedFormulas.insert k _
  binding := h.binding
  formula {name f} hf := by
    rw [Registry.find?_insert] at hf
    split at hf
    · next he =>
      cases hf
      exact ⟨he ▸ hk, he.symm⟩
    · exact h.formula hf
  apart {name x} hx := by
    rw [Registry.find?_insert]
    split
    · next he =>
      have hx' : w.bindings.find? k = some x := he ▸ hx
      simp [hb] at hx'
    · exact h.apart hx
  answered {name f} hf := by
    rw [Registry.find?_insert] at hf
    split at hf
    · cases hf
      refine ⟨root, rfl, fun site hsite => ?_⟩
      -- the new tree does not call its own name, so its calls are answered as before
      obtain ⟨g, hg, hn⟩ := answers_of_read hread site hsite
      have hcall : site.1 ∈ root.calls := Expr.mem_calls.mpr ⟨site.2, hsite⟩
      have hne : site.1 ≠ k := fun he => hback _ hcall (he ▸ .refl)
      exact ⟨g, by rw [Registry.find?_insert, if_neg hne]; exact hg, hn⟩
    · next hne =>
      obtain ⟨old, hold, hans⟩ := h.answered hf
      refine ⟨old, hold, fun site hsite => ?_⟩
      obtain ⟨g, hg, hn⟩ := hans site hsite
      by_cases hs : site.1 = k
      · have hcall : w.formulas.Calls name k :=
          ⟨f, hf, by simpa [Formula.calls, hold, ← hs] using Expr.mem_calls.mpr ⟨site.2, hsite⟩⟩
        obtain ⟨former, hformer, ha⟩ := harity name hne hcall
        rw [← hs, hg] at hformer
        cases hformer
        exact ⟨_, by rw [Registry.find?_insert, if_pos hs], ha.symm.trans hn⟩
      · exact ⟨g, by rw [Registry.find?_insert, if_neg hs]; exact hg, hn⟩
  acyclic := (Registry.acyclic_insert_iff h.acyclic).mpr hback

theorem createFormula {k : Text} {f : Formula} (hk : w.newKey name = .ok k)
    (hf : w.define k text = .ok f) : WellFormed { w with formulas := w.formulas.insert k f } := by
  obtain ⟨hname, hb, hform⟩ := newKey_eq_ok hk
  obtain ⟨root, hread, -, rfl⟩ := define_eq_ok hf
  have hcalled {c : Text} (hc : c ∈ root.calls) : c ≠ k := by
    obtain ⟨n, hn⟩ := Expr.mem_calls.mp hc
    obtain ⟨g, hg, -⟩ := answers_of_read hread _ hn
    rintro rfl
    simp [hform] at hg
  refine h.insertFormula hname hb hread
    (fun c hc => h.not_reach_of_unregistered hform (hcalled hc)) ?_
  intro a hne hcall
  exact absurd (.single hcall) (h.not_reach_of_unregistered hform hne)

theorem updateFormula {former f : Formula} (hformer : w.formulaNamed? name = some former)
    (hf : w.define (key name) text = .ok f)
    (hcircle : w.formulas.leadsTo (key name) f.calls = false)
    (huse : f.arity = former.arity ∨ w.formulas.caller? (key name) = none) :
    WellFormed { w with formulas := w.formulas.insert (key name) f } := by
  obtain ⟨root, hread, -, rfl⟩ := define_eq_ok hf
  have hb : w.bindings.find? (key name) = none := by
    cases hx : w.bindings.find? (key name) with
    | none => rfl
    | some x =>
      rw [formulaNamed?, h.apart hx] at hformer
      cases hformer
  refine h.insertFormula (h.formula hformer).1 hb hread ?_ ?_
  · intro c hc hreach
    rw [← Bool.not_eq_true] at hcircle
    exact hcircle ((Registry.leadsTo_iff _ _ _).mpr ⟨c, hc, hreach⟩)
  · intro a hne hcall
    rcases huse with harity | hcaller
    · exact ⟨former, hformer, harity.symm⟩
    · exact absurd hcall ((Registry.caller?_eq_none_iff h.orderedFormulas).mp hcaller a hne)

theorem deleteFormula (huse : w.formulas.caller? (key name) = none) :
    WellFormed { w with formulas := w.formulas.erase (key name) } := by
  refine ⟨h.orderedBindings, h.orderedFormulas.erase _, h.binding, ?_, ?_, ?_, h.acyclic.erase _⟩
  · intro other g hg
    rw [Registry.find?_erase] at hg
    split at hg
    · cases hg
    · exact h.formula hg
  · intro other x hx
    rw [Registry.find?_erase, h.apart hx]
    exact ite_self _
  · intro other g hg
    rw [Registry.find?_erase] at hg
    split at hg
    · cases hg
    · next hne =>
      obtain ⟨root, hroot, hans⟩ := h.answered hg
      refine ⟨root, hroot, fun site hsite => ?_⟩
      obtain ⟨callee, hcallee, hn⟩ := hans site hsite
      have hs : site.1 ≠ key name := by
        intro hs
        have hcall : w.formulas.Calls other (key name) :=
          ⟨g, hg, by simpa [Formula.calls, hroot, ← hs] using Expr.mem_calls.mpr ⟨site.2, hsite⟩⟩
        exact (Registry.caller?_eq_none_iff h.orderedFormulas).mp huse other hne hcall
      exact ⟨callee, by rw [Registry.find?_erase, if_neg hs]; exact hcallee, hn⟩

theorem clearFormulas : w.clearFormulas.WellFormed where
  orderedBindings := h.orderedBindings
  orderedFormulas := Registry.ordered_empty
  binding := h.binding
  formula hf := by simp [Workspace.clearFormulas] at hf
  apart _ := Registry.find?_empty _
  answered hf := by simp [Workspace.clearFormulas] at hf
  acyclic := Registry.acyclic_empty

/-- No operation breaks a registry. -/
theorem step {op : Operation} (hstep : w.Step op next) : next.WellFormed := by
  cases hstep with
  | createVariable value? hk => exact h.createVariable value? hk
  | updateVariable value hx => exact h.updateVariable value hx
  | deleteVariable _ => exact h.deleteVariable _
  | clearVariables => exact h.clearVariables
  | createFormula hk hf => exact h.createFormula hk hf
  | updateFormula hformer hf hcircle huse => exact h.updateFormula hformer hf hcircle huse
  | deleteFormula _ huse => exact h.deleteFormula huse
  | clearFormulas => exact h.clearFormulas
  | clear => exact h.clearVariables.clearFormulas

end WellFormed

theorem wellFormed_run (l : Library) (ops : List Operation) : (run l ops).WellFormed :=
  run_induction (wellFormed_ofLibrary l) (fun _ _ _ h hstep => h.step hstep) ops

/-- A formula that an operation put in was read from a text. -/
theorem formula_of_step {op : Operation} {k : Text} {f : Formula} (hstep : w.Step op next)
    (hf : next.formulas.find? k = some f) :
    w.formulas.find? k = some f ∨ ∃ text root, Expr.read w.vocabulary text = .ok root ∧
      f.root? = some root := by
  have hinsert {name' text' : Text} {g : Formula} (hg : w.define name' text' = .ok g)
      (hf : (w.formulas.insert name' g).find? k = some f) : w.formulas.find? k = some f ∨
      ∃ text root, Expr.read w.vocabulary text = .ok root ∧ f.root? = some root := by
    obtain ⟨root, hread, -, rfl⟩ := define_eq_ok hg
    rw [Registry.find?_insert] at hf
    split at hf
    · cases hf
      exact .inr ⟨text', root, hread, rfl⟩
    · exact .inl hf
  cases hstep with
  | createVariable | updateVariable | deleteVariable | clearVariables => exact .inl hf
  | createFormula _ hg => exact hinsert hg hf
  | updateFormula _ hg => exact hinsert hg hf
  | deleteFormula =>
    rw [Registry.find?_erase] at hf
    split at hf
    · cases hf
    · exact .inl hf
  | clearFormulas | clear => simp [clear, clearFormulas] at hf

theorem library_of_step {op : Operation} (hstep : w.Step op next) : next.library = w.library := by
  cases hstep <;> rfl

theorem library_run (l : Library) (ops : List Operation) : (run l ops).library = l := by
  refine run_induction (P := fun w => w.library = l) rfl (fun w op next h hstep => ?_) ops
  rw [library_of_step hstep, h]

/-- What holds of every tree that can be read while the registries are in order holds of the trees
of all registered formulas. -/
theorem stored_of_run {P : Expr → Prop} {l : Library}
    (hread : ∀ w : Workspace, w.WellFormed → w.library = l → ∀ text root,
      Expr.read w.vocabulary text = .ok root → P root)
    (ops : List Operation) {k : Text} {f : Formula} (hf : (run l ops).formulas.find? k = some f)
    {root : Expr} (hroot : f.root? = some root) : P root := by
  refine (run_induction (P := fun w => (w.WellFormed ∧ w.library = l) ∧ ∀ k f root,
    w.formulas.find? k = some f → f.root? = some root → P root) ⟨⟨wellFormed_ofLibrary l, rfl⟩,
    fun k f root hf => ?_⟩ (fun w op next ih hstep => ?_) ops).2 k f root hf hroot
  · simp [ofLibrary] at hf
  · obtain ⟨⟨hw, hlibrary⟩, hstored⟩ := ih
    refine ⟨⟨hw.step hstep, (library_of_step hstep).trans hlibrary⟩, fun k f root hf hroot => ?_⟩
    rcases formula_of_step hstep hf with hold | ⟨text, new, hnew, hf'⟩
    · exact hstored k f root hold hroot
    · obtain rfl : root = new := Option.some.inj (hroot.symm.trans hf')
      exact hread w hw hlibrary _ _ hnew

/-- After every run over any library the registries are in order, and an operation that is refused
changes nothing. -/
theorem registries_of_run (l : Library) (ops : List Operation) :
    (run l ops).library = l ∧ (run l ops).WellFormed ∧
      ∀ op e, ((run l ops).apply op).1 = .error e →
        (run l (ops ++ [op])).bindings = (run l ops).bindings ∧
        (run l (ops ++ [op])).formulas = (run l ops).formulas := by
  refine ⟨library_run l ops, wellFormed_run l ops, fun op e he => ?_⟩
  rw [run_append_singleton, after_of_refused he]
  exact ⟨rfl, rfl⟩

end Workspace

end Abacus
