import Abacus.Proofs.Outcome
import Abacus.Proofs.Session.Run
import Abacus.Proofs.Session.Store

/-! A calculator answers as if it kept no trees. Every tree in its store is what the text would be
read as now, since a change of the formulas empties the store and nothing else has a part in how a
text is read; so what is found there is what reading the text again would give. -/

namespace Abacus

namespace Workspace

/-- The names that can be called are the same for an action that writes no formula. -/
theorem vocabulary_of_setVariable (w : Workspace) (name : Text) (value : Float) :
    ((setVariable name value).on w).2.vocabulary = w.vocabulary := by
  have hupdate : ((updateVariable name value).on w).2.vocabulary = w.vocabulary := by
    rw [updateVariable, Action.on_check_bind]
    split <;> rfl
  have hcreate : ((createVariable name (some value)).on w).2.vocabulary = w.vocabulary := by
    rw [createVariable, Action.on_check_bind]
    split <;> rfl
  change ((if (w.variableNamed? name).isSome then updateVariable name value
    else createVariable name (some value)).on w).2.vocabulary = w.vocabulary
  split
  · exact hupdate
  · exact hcreate

theorem vocabulary_of_deleteVariable (w : Workspace) (name : Text) :
    (Action.on (do let _ ← deleteVariable name) w).2.vocabulary = w.vocabulary := by
  rw [Action.on_bind_pure_snd]
  rfl

end Workspace

namespace Calculator

open TreeStore

section

variable {σ : Type} {s next : Calculator σ}

/-- The same calculator with a store that keeps nothing. -/
def bare (s : Calculator σ) : Calculator Forgetful :=
  ⟨s.workspace, s.settings, TreeStore.ofCapacity 1⟩

@[simp]
theorem workspace_bare (s : Calculator σ) : s.bare.workspace = s.workspace := rfl

@[simp]
theorem evaluate_bare (s : Calculator σ) (f : Formula) : s.bare.evaluate f = s.evaluate f := rfl

@[simp]
theorem read_bare (s : Calculator σ) (text : Text) :
    s.bare.read text = (Expr.read s.workspace.vocabulary text, s.bare) := by
  unfold read
  simp only [find, workspace_bare, TreeStore.insert]
  split <;> simp_all [bare]

theorem onWorkspace_bare (action : Action Workspace Unit) (s : Calculator σ) :
    ((onWorkspace action).on s).map id bare = (onWorkspace action).on s.bare := rfl

theorem changed_bare {action : Action (Calculator σ) Unit}
    {same : Action (Calculator Forgetful) Unit} (h : (action.on s).map id bare = same.on s.bare) :
    (s.changed action).map id bare = s.bare.changed same := by
  rw [changed, changed, ← h]
  rfl

variable [TreeStore σ]

/-- Every tree that is kept is what its text is read as now. -/
def Fresh (s : Calculator σ) : Prop :=
  ∀ text e, (find s.cache text).1 = some e → Expr.read s.workspace.vocabulary text = .ok e

theorem Fresh.of_vocabulary (h : s.Fresh) (hcache : next.cache = s.cache)
    (hvoc : next.workspace.vocabulary = s.workspace.vocabulary) : next.Fresh := by
  intro text e he
  rw [hvoc]
  exact h text e (hcache ▸ he)

theorem bare_of_read (s : Calculator σ) (text : Text) : (s.read text).2.bare = s.bare := by
  unfold read
  split
  · rfl
  · split <;> rfl

theorem Fresh.read_eq (h : s.Fresh) (text : Text) :
    (s.read text).1 = Expr.read s.workspace.vocabulary text := by
  unfold read
  split
  · next e cache hfind => exact (h text e (by rw [hfind])).symm
  · split
    · next e he => exact he.symm
    · next e he => exact he.symm

theorem Fresh.read_map_bare (h : s.Fresh) (text : Text) :
    (s.read text).map id bare = s.bare.read text := by
  rw [read_bare]
  exact Prod.ext (h.read_eq text) (bare_of_read s text)

theorem Fresh.calculate_map_bare (h : s.Fresh) (text : Text) :
    (s.calculate text).map id bare = s.bare.calculate text := by
  have hbare := h.read_map_bare text
  unfold calculate
  rw [← hbare]
  split
  · next e next hread =>
    rw [hread]
    rfl
  · next e next hread =>
    rw [hread]
    rfl

theorem calculate_snd (s : Calculator σ) (text : Text) :
    (s.calculate text).2 = (s.read text).2 := by
  unfold calculate
  split
  · next hread => rw [hread]
  · next hread => rw [hread]

theorem redefining_bare (action : Action Workspace Unit) (s : Calculator σ) :
    ((redefining action).on s).map id bare = (redefining action).on s.bare := by
  rw [redefining, redefining, Action.on_bind, Action.on_bind, ← onWorkspace_bare]
  rcases (onWorkspace action).on s with ⟨_ | _, next⟩ <;> rfl

@[simp]
theorem bare_ofCapacity (n : Nat) : (ofCapacity n : Calculator σ).bare = ofCapacity 1 := rfl

/-- A calculator whose trees are fresh answers what it would answer if it kept none, and goes on
likewise. -/
theorem Fresh.respond_bare (h : s.Fresh) (r : Request) :
    (s.respond r).map id bare = s.bare.respond r := by
  cases r with
  | read text => rw [respond, respond, ← h.read_map_bare text]; rfl
  | calculate text => rw [respond, respond, ← h.calculate_map_bare text]; rfl
  | calculateFormula name => rfl
  | setVariable name value => exact changed_bare (onWorkspace_bare _ s)
  | deleteVariable name => exact changed_bare (onWorkspace_bare _ s)
  | setFormula name text => exact changed_bare (redefining_bare _ s)
  | deleteFormula name => exact changed_bare (redefining_bare _ s)
  | clear => rfl
  | configure settings => rfl

end

variable {σ : Type} [TreeStore σ] [LawfulTreeStore σ] {s next : Calculator σ}

theorem fresh_ofCapacity (n : Nat) : (ofCapacity n : Calculator σ).Fresh := by
  intro text e h
  simp [ofCapacity, LawfulTreeStore.find_ofCapacity] at h

theorem fresh_of_clear (h : next.cache = TreeStore.clear s.cache) : next.Fresh := by
  intro text e he
  simp [h, LawfulTreeStore.find_clear] at he

theorem Fresh.read (h : s.Fresh) (text : Text) : (s.read text).2.Fresh := by
  have hfound {other : Text} {x : Expr} {found : Option Expr} {cache : σ}
      (hfind : find s.cache text = (found, cache)) (hx : (find cache other).1 = some x) :
      Expr.read s.workspace.vocabulary other = .ok x :=
    h other x (LawfulTreeStore.find_find (by rw [hfind]; exact hx))
  unfold Calculator.read
  split
  · next e cache hfind => exact fun other x hx => hfound hfind hx
  · next cache hfind =>
    split
    · next e he =>
      intro other x hx
      rcases LawfulTreeStore.find_insert hx with ⟨rfl, rfl⟩ | hold
      · exact he
      · exact hfound hfind hold
    · exact fun other x hx => hfound hfind hx

/-- A refused change of the formulas leaves the trees where they are, and then the formulas are the
former ones. -/
theorem Fresh.redefining {action : Action Workspace Unit} (h : s.Fresh) (hatomic : action.Atomic) :
    ((redefining action).on s).2.Fresh := by
  have hkept := atomic_onWorkspace (σ := σ) hatomic s
  rw [Calculator.redefining, Action.on_bind]
  rcases hout : (onWorkspace action).on s with ⟨e | a, next⟩
  · rw [hout] at hkept
    obtain rfl : next = s := hkept e rfl
    exact h
  · exact fresh_of_clear (s := next) rfl

/-- No request leaves a tree behind that its text is not read as. -/
theorem Fresh.respond (h : s.Fresh) (r : Request) : (s.respond r).2.Fresh := by
  cases r with
  | read text => exact h.read text
  | calculate text =>
    have hnext := calculate_snd s text
    exact hnext ▸ h.read text
  | calculateFormula name => exact h
  | setVariable name value =>
    exact h.of_vocabulary rfl (Workspace.vocabulary_of_setVariable _ name value)
  | deleteVariable name => exact h.of_vocabulary rfl (Workspace.vocabulary_of_deleteVariable _ name)
  | setFormula name text =>
    have hnext := Fresh.redefining h (Workspace.atomic_setFormula name text)
    exact hnext
  | deleteFormula name =>
    have hnext := Fresh.redefining h (Workspace.atomic_deleteFormula name).ignoring
    exact hnext
  | clear => exact fresh_of_clear rfl
  | configure settings => exact h.of_vocabulary rfl rfl

theorem Fresh.respondAll (h : s.Fresh) (requests : List Request) :
    (s.respondAll requests).2.Fresh := by
  induction requests generalizing s with
  | nil => exact h
  | cons r rest ih => exact ih (h.respond r)

theorem Fresh.respondAll_bare (h : s.Fresh) (requests : List Request) :
    (s.respondAll requests).map id bare = s.bare.respondAll requests := by
  induction requests generalizing s with
  | nil => rfl
  | cons r rest ih =>
    have hstep := h.respond_bare r
    have hrest := ih (h.respond r)
    simp only [Calculator.respondAll, ← hstep, Prod.map_fst, Prod.map_snd, ← hrest]
    rfl

theorem capacity_of_read (s : Calculator σ) (text : Text) :
    capacity (s.read text).2.cache = capacity s.cache := by
  have hfind := LawfulTreeStore.capacity_find s.cache text
  unfold Calculator.read
  split
  · next hc => simpa [hc] using hfind
  · next hc =>
    split
    · simpa [hc, LawfulTreeStore.capacity_insert] using hfind
    · simpa [hc] using hfind

theorem capacity_of_respond (s : Calculator σ) (r : Request) :
    capacity (s.respond r).2.cache = capacity s.cache := by
  have hclear := LawfulTreeStore.capacity_clear s.cache
  have hredefining (action : Action Workspace Unit) : capacity ((redefining action).on s).2.cache =
      capacity s.cache := by
    have hkept : ((onWorkspace action).on s).2.cache = s.cache := rfl
    rw [redefining, Action.on_bind]
    rcases hout : (onWorkspace action).on s with ⟨e | _, next⟩
    · rw [← hkept, hout]
    · rw [hout] at hkept
      change capacity (TreeStore.clear next.cache) = capacity s.cache
      rw [hkept, hclear]
  cases r with
  | read text => exact capacity_of_read s text
  | calculate text =>
    have hnext := calculate_snd s text
    exact hnext ▸ capacity_of_read s text
  | calculateFormula name => rfl
  | setVariable name value => rfl
  | deleteVariable name => rfl
  | setFormula name text => exact hredefining (Workspace.setFormula name text)
  | deleteFormula name => exact hredefining (do let _ ← Workspace.deleteFormula name)
  | clear => exact hclear
  | configure settings => rfl

theorem capacity_of_respondAll (s : Calculator σ) (requests : List Request) :
    capacity (s.respondAll requests).2.cache = capacity s.cache := by
  induction requests generalizing s with
  | nil => rfl
  | cons r rest ih => exact (ih _).trans (capacity_of_respond s r)

/-- Whatever keeps the trees and however many of them: every text is read as if for the first time,
the answers are those of any other calculator, such as one that keeps nothing or one of another
capacity, and there are never more trees kept than there is room for. -/
theorem answers_independent_of_store (σ τ : Type) [TreeStore σ] [TreeStore τ] [LawfulTreeStore σ]
    [LawfulTreeStore τ] (n m : Nat) (requests : List Request) :
    (∀ text, (((ofCapacity n : Calculator σ).respondAll requests).2.read text).1 =
      Expr.read ((ofCapacity n : Calculator σ).respondAll requests).2.workspace.vocabulary text) ∧
    ((ofCapacity n : Calculator σ).respondAll requests).1 =
      ((ofCapacity m : Calculator τ).respondAll requests).1 ∧
    size ((ofCapacity n : Calculator σ).respondAll requests).2.cache ≤ max 1 n := by
  refine ⟨fun text => ((fresh_ofCapacity n).respondAll requests).read_eq text, ?_, ?_⟩
  · have hn : (ofCapacity n : Calculator σ).Fresh := fresh_ofCapacity n
    have hm : (ofCapacity m : Calculator τ).Fresh := fresh_ofCapacity m
    have hbare := (hn.respondAll_bare requests).trans (hm.respondAll_bare requests).symm
    exact congrArg Prod.fst hbare
  · have hroom :=
      LawfulTreeStore.size_le ((ofCapacity n : Calculator σ).respondAll requests).2.cache
    rw [capacity_of_respondAll, ofCapacity, LawfulTreeStore.capacity_ofCapacity] at hroom
    exact hroom

/-- There is room for one tree only; the second answer comes from the store. -/
theorem answers_independent_of_store_reread :
    ((ofCapacity 0 : Session).respondAll [.read "x".toList, .read "x".toList]).1 =
      [.tree (.ok (.identifier "x".toList)), .tree (.ok (.identifier "x".toList))] ∧
    size ((ofCapacity 0 : Session).respondAll [.read "x".toList, .read "x".toList]).2.cache ≤
      1 := by
  have hbare :
      ((ofCapacity 0 : Calculator Forgetful).respondAll [.read "x".toList, .read "x".toList]).1 =
        [.tree (.ok (.identifier "x".toList)), .tree (.ok (.identifier "x".toList))] := by
    with_unfolding_all rfl
  obtain ⟨-, hanswers, hsize⟩ :=
    answers_independent_of_store Cache Forgetful 0 0 [.read "x".toList, .read "x".toList]
  exact ⟨hanswers.trans hbare, hsize⟩

end Calculator

end Abacus
