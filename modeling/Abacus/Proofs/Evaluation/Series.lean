import Mathlib
import Abacus.Evaluation.Basic
import Abacus.Proofs.Number.Order
import Abacus.Proofs.Outcome

/-! Which positions a series visits. A loop over positions calls its body at each of a list of
positions that does not depend on the body, and joins the values at the end. The list grows, from
the first position on and not beyond the last. -/

namespace Abacus

namespace Series

/-- Positions, each the one after the one before, that begin at the first one and stay within the
last one. -/
structure Visits (next : Float → Float) (first last : Float) (ps : List Float) : Prop where
  starts : ps.head? = if first ≤ last then some first else none
  steps : ps.IsChain (fun p q => q = next p)
  increasing : ps.Pairwise (· < ·)
  bounded : ∀ p ∈ ps, p ≤ last

theorem pairwise_of_steps {next : Float → Float} {ps : List Float}
    (h : ps.IsChain fun p q => q = next p ∧ p < q) : ps.Pairwise (· < ·) :=
  haveI : IsTrans Float (· < ·) := ⟨fun _ _ _ => float_lt_trans⟩
  List.isChain_iff_pairwise.mp (h.imp fun _ _ hpq => hpq.2)

/-- A loop calls its body at these positions in order, up to the first error, and joins the values.
Where it is not done at the last of them, it ends with the error that the step does not advance. -/
structure Loops (step : Float) (done : Float → Prop) (ps : List Float) (join : List Float → Float)
    (run : (Float → Except EvalError Float) → Except EvalError Float) : Prop where
  completes : (∀ p ∈ ps.getLast?, done p) → ∀ body, run body = join <$> ps.mapM body
  stops : ∀ p ∈ ps.getLast?, ¬ done p →
    ∀ body, run body = ps.mapM body >>= fun _ => .error (.misuse (.noAdvance step p))

section Loops

variable {step p : Float} {done : Float → Prop} {ps : List Float} {join : List Float → Float}

theorem length_of_mapM {body : Float → Except EvalError Float} {values : List Float}
    (h : ps.mapM body = .ok values) : values.length = ps.length := by
  induction ps generalizing values with
  | nil =>
    cases h
    rfl
  | cons p ps ih =>
    rw [List.mapM_cons] at h
    obtain ⟨v, -, h⟩ := bind_eq_ok.mp h
    obtain ⟨vs, hvs, h⟩ := bind_eq_ok.mp h
    cases h
    exact congrArg (· + 1) (ih hvs)

theorem mapM_eq_error {body : Float → Except EvalError Float} {e : EvalError} (hp : p ∈ ps)
    (he : body p = .error e) (hbody : ∀ q, body q = .error e ∨ ∃ v, body q = .ok v) :
    ps.mapM body = .error e := by
  induction ps with
  | nil => cases hp
  | cons q ps ih =>
    rw [List.mapM_cons]
    rcases hbody q with hq | ⟨v, hq⟩
    · rw [hq]
      rfl
    · have htail : p ∈ ps := (List.mem_cons.mp hp).resolve_left fun h => by
        rw [h, hq] at he; cases he
      rw [hq, ok_bind, ih htail]
      rfl

theorem Loops.nil : Loops step done [] join fun _ => .ok (join []) where
  completes _ _ := rfl
  stops _ h := nomatch h

theorem Loops.single (h : done p) :
    Loops step done [p] join fun body => (fun v => join [v]) <$> body p where
  completes _ body := by cases hv : body p <;> simp [hv]
  stops q hq hnot := absurd (by cases hq; exact h) hnot

theorem Loops.stuck (h : ¬ done p) :
    Loops step done [p] join fun body => body p >>= fun _ =>
      .error (.misuse (.noAdvance step p)) where
  completes hdone := absurd (hdone p rfl) h
  stops q hq _ body := by
    cases hq
    cases hv : body p <;> simp [hv]

theorem Loops.cons {run : Float → (Float → Except EvalError Float) → Except EvalError Float}
    (hlast : ps = [] → done p)
    (h : ∀ v, Loops step done ps (fun values => join (v :: values)) (run v)) :
    Loops step done (p :: ps) join fun body => body p >>= fun v => run v body := by
  refine ⟨fun hdone body => ?_, fun q hq hnot body => ?_⟩
  · have htail : ∀ q ∈ ps.getLast?, done q := fun q hq => hdone q (List.mem_getLast?_cons hq)
    cases hv : body p with
    | error e => simp [hv]
    | ok v =>
      rw [ok_bind, (h v).completes htail body]
      cases hvs : ps.mapM body <;> simp [hv, hvs]
  · have htail : q ∈ ps.getLast? := by
      by_cases hps : ps = []
      · subst hps
        cases hq
        exact absurd (hlast rfl) hnot
      · rwa [List.getLast?_cons_of_ne_nil hps] at hq
    cases hv : body p with
    | error e => simp [hv]
    | ok v =>
      rw [ok_bind, (h v).stops q htail hnot body]
      cases hvs : ps.mapM body <;> simp [hv, hvs]

theorem Loops.congr {join' : List Float → Float}
    {run : (Float → Except EvalError Float) → Except EvalError Float}
    (h : Loops step done ps join run)
    (hjoin : ∀ values, values.length = ps.length → join values = join' values) :
    Loops step done ps join' run where
  stops := h.stops
  completes hdone body := by
    rw [h.completes hdone body]
    cases hvs : ps.mapM body with
    | error e => rfl
    | ok values => exact congrArg _ (hjoin values (length_of_mapM hvs))

end Loops

section Fold

variable {step last position : Float} {join : Float → Float → Float}

/-- The positions of a sum or a product, from one of them on. -/
def positions (step last position : Float) : List Float :=
  if position ≤ last then
    if _advance : position < nextPosition step position then
      position :: positions step last (nextPosition step position)
    else [position]
  else []
termination_by (topRung - rung position).toNat
decreasing_by exact rungsAbove_lt _advance

theorem head_positions (step last position : Float) :
    (positions step last position).head? = if position ≤ last then some position else none := by
  rw [positions]
  split
  · split <;> rfl
  · rfl

theorem steps_positions :
    (positions step last position).IsChain (fun p q => q = nextPosition step p ∧ p < q) := by
  fun_induction positions step last position with
  | case1 position _ hadvance ih =>
    refine ih.cons fun q hq => ?_
    rw [head_positions] at hq
    split at hq
    · cases hq
      exact ⟨rfl, hadvance⟩
    · cases hq
  | case2 | case3 => simp

theorem positions_le : ∀ p ∈ positions step last position, p ≤ last := by
  fun_induction positions step last position with
  | case1 position hle _ ih => exact List.forall_mem_cons.mpr ⟨hle, ih⟩
  | case2 position hle _ => exact List.forall_mem_singleton.mpr hle
  | case3 => simp

theorem visits_positions :
    Visits (nextPosition step) position last (positions step last position) where
  starts := head_positions step last position
  steps := steps_positions.imp fun _ _ h => h.1
  increasing := pairwise_of_steps steps_positions
  bounded := positions_le

/-- No position is left out: where the loop is not stopped, one more step leads beyond the last
position. -/
theorem positions_complete :
    ∀ p ∈ (positions step last position).getLast?, p < nextPosition step p →
    ¬ nextPosition step p ≤ last := by
  fun_induction positions step last position with
  | case1 position _ _ ih =>
    intro p hp hadvance
    by_cases hnil : positions step last (nextPosition step position) = []
    · obtain rfl : position = p := by simpa [hnil] using hp
      have hhead := head_positions step last (nextPosition step position)
      rw [hnil] at hhead
      intro hle
      rw [if_pos hle] at hhead
      cases hhead
    · rw [List.getLast?_cons_of_ne_nil hnil] at hp
      exact ih p hp hadvance
  | case2 position _ hnot =>
    intro p hp hadvance
    cases hp
    exact absurd hadvance hnot
  | case3 => simp

theorem loops_fold (total : Float) :
    Loops step (fun p => p < nextPosition step p) (positions step last position)
    (·.foldl join total) (fold join · step last total position) := by
  fun_induction positions step last position generalizing total with
  | case1 position hle hadvance ih =>
    have hrun : (fold join · step last total position) = fun body => body position >>= fun v =>
        fold join body step last (join total v) (nextPosition step position) := by
      funext body
      rw [fold, if_pos hle]
      simp only [dif_pos hadvance]
    rw [hrun]
    exact .cons (fun _ => hadvance) fun v => ih (join total v)
  | case2 position hle hstuck =>
    have hrun : (fold join · step last total position) =
        fun body => body position >>= fun _ => .error (.misuse (.noAdvance step position)) := by
      funext body
      rw [fold, if_pos hle]
      simp only [dif_neg hstuck]
    rw [hrun]
    exact .stuck hstuck
  | case3 position hbeyond =>
    have hrun : (fold join · step last total position) = fun _ => .ok total := by
      funext body
      rw [fold, if_neg hbeyond]
    rw [hrun]
    exact .nil

end Fold

section Integral

variable {step last position : Float}

/-- The position one step on, or the limit where that is beyond it. -/
def nextPoint (step last position : Float) : Float :=
  if last < nextPosition step position then last else nextPosition step position

/-- The points of an integral, from one of them on. -/
def points (step last position : Float) : List Float :=
  if _below : position < last then
    if _advance : position < nextPosition step position then
      position :: points step last (nextPoint step last position)
    else [position]
  else [position]
termination_by (topRung - rung position).toNat
decreasing_by
  apply rungsAbove_lt
  unfold nextPoint
  split
  · exact _below
  · exact _advance

/-- The trapezoids between neighbouring points, added from the left. -/
def trapezoidSum : Float → List (Float × Float) → Float
  | area, (p, u) :: (q, v) :: rest => trapezoidSum (area + (u + v) / 2 * (q - p)) ((q, v) :: rest)
  | area, _ => area

theorem lt_nextPoint (hbelow : position < last) (hadvance : position < nextPosition step position) :
    position < nextPoint step last position := by
  unfold nextPoint
  split
  · exact hbelow
  · exact hadvance

theorem nextPoint_le (hbelow : position < last) (hadvance : position < nextPosition step position) :
    nextPoint step last position ≤ last := by
  have hlast := (isNaN_of_lt hbelow).2
  unfold nextPoint
  split
  · exact (le_iff_rung hlast hlast).mpr le_rfl
  · next hnot => exact (float_not_lt (isNaN_of_lt hadvance).2 hlast).mp hnot

theorem head_points (step last position : Float) :
    (points step last position).head? = some position := by
  rw [points]
  split
  · split <;> rfl
  · rfl

theorem points_ne_nil : points step last position ≠ [] := by
  intro h
  have hhead := head_points step last position
  rw [h] at hhead
  cases hhead

theorem steps_points :
    (points step last position).IsChain (fun p q => q = nextPoint step last p ∧ p < q) := by
  fun_induction points step last position with
  | case1 position hbelow hadvance ih =>
    refine ih.cons fun q hq => ?_
    rw [head_points] at hq
    cases hq
    exact ⟨rfl, lt_nextPoint hbelow hadvance⟩
  | case2 | case3 => simp

theorem points_le (h : position ≤ last) : ∀ p ∈ points step last position, p ≤ last := by
  fun_induction points step last position with
  | case1 position hbelow hadvance ih =>
    exact List.forall_mem_cons.mpr ⟨h, ih (nextPoint_le hbelow hadvance)⟩
  | case2 | case3 => exact List.forall_mem_singleton.mpr h

theorem visits_points (h : position ≤ last) :
    Visits (nextPoint step last) position last (points step last position) where
  starts := by rw [head_points, if_pos h]
  steps := steps_points.imp fun _ _ h => h.1
  increasing := pairwise_of_steps steps_points
  bounded := points_le h

/-- The points end at the limit, or where the step does not advance. -/
theorem points_complete (h : position ≤ last) : ∀ p ∈ (points step last position).getLast?,
    (p == last) = true ∨ (p < last ∧ ¬ p < nextPosition step p) := by
  fun_induction points step last position with
  | case1 position hbelow hadvance ih =>
    intro p hp
    rw [List.getLast?_cons_of_ne_nil points_ne_nil] at hp
    exact ih (nextPoint_le hbelow hadvance) p hp
  | case2 position hbelow hstuck =>
    intro p hp
    cases hp
    exact .inr ⟨hbelow, hstuck⟩
  | case3 position hnot =>
    intro p hp
    cases hp
    exact .inl (beq_of_le_of_not_lt h hnot)

/-- The area so far may depend on the height at the first of the points that are left. -/
theorem loops_trapezoids (area : Float → Float) :
    Loops step (fun p => ¬ p < last) (points step last position)
    (fun values => trapezoidSum (area (values.headD 0)) ((points step last position).zip values))
    (fun body => body position >>= fun height =>
      trapezoids body step last (area height) position height) := by
  fun_induction points step last position generalizing area with
  | case1 position hbelow hadvance ih =>
    have hrun (body : Float → Except EvalError Float) (height : Float) :
        trapezoids body step last (area height) position height =
          body (nextPoint step last position) >>= fun value =>
            trapezoids body step last
              (area height + (height + value) / 2 * (nextPoint step last position - position))
              (nextPoint step last position) value := by
      rw [trapezoids, dif_pos hbelow, dif_pos hadvance]
      rfl
    simp only [hrun]
    refine .cons (fun h => absurd h points_ne_nil) fun height => ?_
    refine (ih fun value =>
      area height + (height + value) / 2 * (nextPoint step last position - position)).congr ?_
    intro values hlength
    have hq := head_points step last (nextPoint step last position)
    obtain ⟨q, rest, hpoints⟩ : ∃ q rest, points step last (nextPoint step last position) =
        q :: rest :=
      List.exists_cons_of_ne_nil points_ne_nil
    rw [hpoints] at hq hlength ⊢
    cases hq
    cases values with
    | nil => cases hlength
    | cons v values => rfl
  | case2 position hbelow hstuck =>
    have hrun (body : Float → Except EvalError Float) (height : Float) : trapezoids body step last
        (area height) position height = .error (.misuse (.noAdvance step position)) := by
      rw [trapezoids, dif_pos hbelow, dif_neg hstuck]
    simp only [hrun]
    exact .stuck (not_not.mpr hbelow)
  | case3 position hend =>
    have hrun (body : Float → Except EvalError Float) (height : Float) :
        trapezoids body step last (area height) position height = .ok (area height) := by
      rw [trapezoids, dif_neg hend]
    simp only [hrun]
    exact .single hend

theorem loops_integrate : Loops step (fun p => ¬ p < last) (points step last position)
    (fun values => trapezoidSum 0 ((points step last position).zip values))
      (integrate · step position last) :=
  loops_trapezoids fun _ => 0

end Integral

section Accumulate

variable {first last step : Float}

theorem accumulate_of_isFinite (s : Series) (body : Float → Except EvalError Float)
    (hfirst : first.isFinite = true) (hlast : last.isFinite = true) (hstep : smallestStep ≤ step) :
    accumulate s body first last step =
      match s with
      | sum => fold (· + ·) body step last 0 first
      | product => fold (· * ·) body step last 1 first
      | integral =>
        if last < first then (- ·) <$> integrate body step last first
            else integrate body step first last := by
  cases s <;>
    simp only [accumulate, hstep, hfirst, hlast, decide_true, Bool.not_true, Bool.and_self,
      Bool.false_eq_true, if_false]

/-- A sum or a product visits positions that grow from the first one on, up to the last one, and
ends with the joined values unless the step does not advance; an integral along the line visits
points up to its very limit unless the step does not advance before it; and one against the line is
the negative of the one along it. -/
theorem accumulate_visits (hfirst : first.isFinite = true) (hlast : last.isFinite = true)
    (hstep : smallestStep ≤ step) :
    (∃ ps, Visits (nextPosition step) first last ps ∧
      (∀ p ∈ ps.getLast?, p < nextPosition step p → last < nextPosition step p) ∧
      Loops step (fun p => p < nextPosition step p) ps (·.foldl (· + ·) 0)
        (accumulate .sum · first last step) ∧
      Loops step (fun p => p < nextPosition step p) ps (·.foldl (· * ·) 1)
        (accumulate .product · first last step)) ∧
    (first ≤ last → ∃ ps, Visits (nextPoint step last) first last ps ∧
      (∀ p ∈ ps.getLast?, (p == last) = true ∨ (p < last ∧ ¬ p < nextPosition step p)) ∧
      Loops step (fun p => ¬ p < last) ps (fun values => trapezoidSum 0 (ps.zip values))
        (accumulate .integral · first last step)) ∧
    (last < first → ∀ body,
      accumulate .integral body first last step =
        (- ·) <$> accumulate .integral body last first step) := by
  have hfirst' := isNaN_of_isFinite hfirst
  have hlast' := isNaN_of_isFinite hlast
  simp only [accumulate_of_isFinite _ _ hfirst hlast hstep,
    accumulate_of_isFinite _ _ hlast hfirst hstep]
  refine ⟨⟨positions step last first, visits_positions, ?_, loops_fold 0, loops_fold 1⟩,
    fun hle => ?_, fun hlt body => ?_⟩
  · intro p hp hadvance
    exact (float_not_le (isNaN_of_lt hadvance).2 hlast').mp (positions_complete p hp hadvance)
  · refine ⟨points step last first, visits_points hle, points_complete hle, ?_⟩
    simp only [if_neg ((float_not_lt hfirst' hlast').mpr hle)]
    exact loops_integrate
  · have hnot : ¬ first < last := (float_not_lt hlast' hfirst').mpr (float_le_of_lt hlt)
    rw [if_pos hlt, if_neg hnot]

theorem accumulate_visits_infinite_step :
    Float.isFinite (-1) = true ∧ Float.isFinite 2.5 = true ∧ smallestStep ≤ 1 / 0 ∧
    ∃ ps, Visits (nextPoint (1 / 0) 2.5) (-1) 2.5 ps ∧
      (∀ p ∈ ps.getLast?, (p == 2.5) = true ∨ (p < 2.5 ∧ ¬ p < nextPosition (1 / 0) p)) ∧
      Loops (1 / 0) (fun p => ¬ p < 2.5) ps (fun values => trapezoidSum 0 (ps.zip values))
        (accumulate .integral · (-1) 2.5 (1 / 0)) := by
  have hfirst : Float.isFinite (-1) = true := by decide
  have hlast : Float.isFinite 2.5 = true := by decide
  have hstep : smallestStep ≤ 1 / 0 := by decide
  exact ⟨hfirst, hlast, hstep, (accumulate_visits hfirst hlast hstep).2.1 (by decide)⟩

/-- The points of an integral do not always ascend to its limit: a step may be too small to lead on
from the first of them. -/
theorem integral_stops_before_limit :
    ¬ ∃ ps : List Float, ps.head? = some 100000000000000000 ∧ ps.Pairwise (· < ·) ∧
    (∃ p ∈ ps.getLast?, (p == 100000000000000016) = true) ∧ ∀ body e, ps.mapM body = .error e →
      accumulate .integral body 100000000000000000 100000000000000016 1 = .error e := by
  rintro ⟨ps, -, -, ⟨limit, hlimit, hbeq⟩, hcalls⟩
  -- such points would have to come to the limit, and a body at fault there alone would have to be
  -- asked for its value there
  let body (p : Float) : Except EvalError Float := if p == 100000000000000016 then
    .error .divisionByZero else .ok 0
  have hfault : ps.mapM body = .error .divisionByZero :=
    mapM_eq_error (List.mem_of_mem_getLast? hlimit) (if_pos hbeq) fun p =>
      (ite_eq_or_eq _ _ _).imp_right fun h => ⟨0, h⟩
  have hstuck : accumulate .integral body 100000000000000000 100000000000000016 1 =
      .error (.misuse (.noAdvance 1 100000000000000000)) := by
    have hbody : body 100000000000000000 = .ok 0 := if_neg (by decide)
    rw [accumulate_of_isFinite _ _ (by decide) (by decide) (by decide)]
    simp only [if_neg (by decide : ¬ (100000000000000016 : Float) < 100000000000000000), integrate,
      hbody, ok_bind]
    rw [trapezoids, dif_pos (by decide), dif_neg (by decide +kernel)]
  have hcontra := hcalls body _ hfault
  rw [hstuck] at hcontra
  cases hcontra

end Accumulate

end Series

end Abacus
