import Mathlib.Tactic.FieldSimp
import Mathlib.Tactic.Ring
import Potts.Proofs.Annealing.Reports

/-!
# When a run cools

In exact arithmetic every sweep is as many times hotter than the next one, the first is the hottest
temperature of the settings, and the last is their coldest one, raised to the spacing of the numbers
at one if it is below. Nothing in the settings says that the first of these two is the higher one:
`temperature_falls_iff` says that a run cools exactly when it is, and `temperature_rises` gives
settings that can be used and heat up.
-/

namespace Potts

open Checked

/-! ## Exponentials and logarithms -/

/-- The exponential function ascends and makes products of sums, and the logarithm inverts it. -/
structure Scalar.ExpLog (K : Type) [ExactScalar K] : Prop where
  exp_add : ∀ x y : K, Scalar.exp (x + y) = Scalar.exp x * Scalar.exp y
  exp_lt_exp : ∀ x y : K, x < y → Scalar.exp x < Scalar.exp y
  exp_ln : ∀ x : K, 0 < x → Scalar.exp (Scalar.ln x) = x

namespace Scalar.ExpLog

variable {K : Type} [ExactScalar K] {x y : K}

theorem strictMono (h : ExpLog K) : StrictMono (Scalar.exp : K → K) := fun x y => h.exp_lt_exp x y

theorem exp_zero (h : ExpLog K) : Scalar.exp (0 : K) = 1 := by
  have hne : Scalar.exp (0 : K) ≠ 0 := by
    intro hzero
    have hone := h.exp_add 0 1
    rw [hzero, zero_mul, zero_add, ← hzero] at hone
    exact (h.exp_lt_exp 0 1 one_pos).ne' hone
  have hsquare := h.exp_add 0 0
  rw [add_zero] at hsquare
  exact (left_eq_mul₀ hne).1 hsquare

theorem exp_pos (h : ExpLog K) (x : K) : 0 < Scalar.exp x := by
  have hne : Scalar.exp (x / 2) ≠ 0 := by
    intro hzero
    have hone := h.exp_add (x / 2) (-(x / 2))
    rw [add_neg_cancel, h.exp_zero, hzero, zero_mul] at hone
    exact one_ne_zero hone
  rw [← add_halves x, h.exp_add]
  exact mul_self_pos.2 hne

theorem ln_le_ln_iff (h : ExpLog K) (hx : 0 < x) (hy : 0 < y) :
    Scalar.ln x ≤ Scalar.ln y ↔ x ≤ y := by
  rw [← h.strictMono.le_iff_le, h.exp_ln x hx, h.exp_ln y hy]

end Scalar.ExpLog

/-! ## Geometric cooling -/

namespace Cooling

variable {K : Type} [ExactScalar K] {c : Cooling K} {coldest hottest : K} {sweeps : Nat}

open Scalar

theorem temperature_eq (c : Cooling K) (t : Nat) :
    c.temperature t = c.hottest * exp (-c.rate * t) := rfl

theorem temperature_zero (h : ExpLog K) (c : Cooling K) : c.temperature 0 = c.hottest := by
  rw [temperature_eq, Nat.cast_zero, mul_zero, h.exp_zero, mul_one]

theorem temperature_succ (h : ExpLog K) (c : Cooling K) (t : Nat) :
    c.temperature (t + 1) = c.temperature t * exp (-c.rate) := by
  have hexponent : -c.rate * ((t + 1 : Nat) : K) = -c.rate * t + -c.rate := by
    rw [Nat.cast_succ, mul_add, mul_one]
  rw [temperature_eq, temperature_eq, hexponent, h.exp_add, mul_assoc]

theorem temperature_pos (h : ExpLog K) (hhottest : 0 < c.hottest) (t : Nat) :
    0 < c.temperature t :=
  mul_pos hhottest (h.exp_pos _)

theorem temperature_succ_le (h : ExpLog K) (hhottest : 0 < c.hottest) (t : Nat) :
    c.temperature (t + 1) ≤ c.temperature t ↔ 0 ≤ c.rate := by
  have hpos := temperature_pos h hhottest t
  rw [temperature_succ h, mul_le_iff_le_one_right hpos, ← h.exp_zero, h.strictMono.le_iff_le,
    neg_nonpos]

theorem raised_pos (hepsilon : 0 < (epsilon : K)) (coldest : K) : 0 < max coldest epsilon :=
  hepsilon.trans_le (le_max_right _ _)

theorem rate_between (coldest hottest : K) (hsweeps : 1 < sweeps) :
    (between coldest hottest sweeps).rate =
      (ln hottest - ln (max coldest epsilon)) / ((sweeps - 1 : Nat) : K) := by
  rw [between, if_pos hsweeps]
  rfl

theorem rate_nonneg_iff (h : ExpLog K) (hepsilon : 0 < (epsilon : K)) (hhottest : 0 < hottest)
    (hsweeps : 1 < sweeps) :
    0 ≤ (between coldest hottest sweeps).rate ↔ max coldest epsilon ≤ hottest := by
  have hcount : (0 : K) < ((sweeps - 1 : Nat) : K) := Nat.cast_pos.2 (by omega)
  rw [rate_between coldest hottest hsweeps, le_div_iff₀ hcount, zero_mul, sub_nonneg,
    h.ln_le_ln_iff (raised_pos hepsilon coldest) hhottest]

/-- No sweep is hotter than the one before it if the hottest temperature is not below the coldest
one, raised. -/
theorem temperature_succ_le_iff (h : ExpLog K) (hepsilon : 0 < (epsilon : K))
    (hhottest : 0 < hottest) (hsweeps : 1 < sweeps) (t : Nat) :
    (between coldest hottest sweeps).temperature (t + 1) ≤
      (between coldest hottest sweeps).temperature t ↔ max coldest epsilon ≤ hottest := by
  rw [temperature_succ_le h hhottest t, rate_nonneg_iff h hepsilon hhottest hsweeps]

theorem temperature_last (h : ExpLog K) (hepsilon : 0 < (epsilon : K)) (hhottest : 0 < hottest)
    (hsweeps : 1 < sweeps) :
    (between coldest hottest sweeps).temperature (sweeps - 1) = max coldest epsilon := by
  have hcount : ((sweeps - 1 : Nat) : K) ≠ 0 := Nat.cast_ne_zero.2 (by omega)
  have hstart : (between coldest hottest sweeps).hottest = hottest := rfl
  rw [temperature_eq, rate_between coldest hottest hsweeps, neg_mul, div_mul_cancel₀ _ hcount,
    neg_sub, hstart]
  calc hottest * exp (ln (max coldest epsilon) - ln hottest)
      = exp (ln hottest) * exp (ln (max coldest epsilon) - ln hottest) := by
        rw [h.exp_ln hottest hhottest]
    _ = exp (ln (max coldest epsilon)) := by rw [← h.exp_add, add_sub_cancel]
    _ = max coldest epsilon := h.exp_ln _ (raised_pos hepsilon coldest)

end Cooling

/-! ## Temperatures of a run -/

namespace Annealing

section Run

variable {F R : Type} [Scalar F]

/-- The temperatures that the reports of a run tell. -/
def Run.temperatures (run : Run F) : List F :=
  run.records.map fun record => record.report.temperature

theorem yields_anneal_temperatures [SeededSource R] (d : Detector F) (net : Network F) :
    Yields (anneal R d net) fun run => run.temperatures = temperatures d 0 d.sweeps ∧
      ∃ setting last, sweptAt R d net (temperatures d 0 d.sweeps) = .ok (setting, last) ∧
        run.labels = last.labels.toList := by
  obtain ⟨⟨setting, first⟩, hfirst, -, -, -, -, hconsistent⟩ := yields_start (R := R) d net
  obtain ⟨⟨records, last⟩, hsweeps, -, hlast, -⟩ :=
    hconsistent.yields_sweepsFrom_records d d.sweeps 0
  refine ⟨⟨net.size, net.edgeCount, setting.labels, records, last.population.occupied,
    last.labels.toList⟩, ?_, map_records_of_sweepsFrom (fun _ _ _ => rfl) hsweeps, setting, last,
    ?_, rfl⟩
  · rw [anneal, hfirst]
    change sweepsFrom d setting d.sweeps 0 first >>= _ = _
    rw [hsweeps]
    rfl
  · rw [sweptAt, hfirst]
    change sweeps setting first (temperatures d 0 d.sweeps) >>= _ = _
    rw [hlast]
    rfl

end Run

variable {K : Type} [ExactScalar K]

/-- With settings that can be used and more than one sweep, a run makes its sweeps at the
temperatures of its cooling and reports them. The first is the hottest temperature of the settings,
the last is their coldest one, raised to the spacing of the numbers at one. No sweep is hotter than
the one before it exactly when the first temperature is not below the last one; otherwise every
sweep is. -/
theorem temperature_falls_iff (R : Type) [SeededSource R] (hexp : Scalar.ExpLog K)
    (hepsilon : 0 < (Scalar.epsilon : K)) (d : Detector K) (hvalid : d.validate = .ok ())
    (hsweeps : 1 < d.sweeps) :
    (∀ net : Network K, net.size ≠ 0 → ∃ run setting last, d.runNetwork R net = .ok run ∧
      run.temperatures = temperatures d 0 d.sweeps ∧
      sweptAt R d net (temperatures d 0 d.sweeps) = .ok (setting, last) ∧
      run.labels = last.labels.toList) ∧
    d.cooling.temperature 0 = d.hottest ∧
    d.cooling.temperature (d.sweeps - 1) = max d.coldest Scalar.epsilon ∧
    ((∀ t, t + 1 < d.sweeps → d.cooling.temperature (t + 1) ≤ d.cooling.temperature t) ↔
      max d.coldest Scalar.epsilon ≤ d.hottest) ∧
    (d.hottest < max d.coldest Scalar.epsilon →
      ∀ t, t + 1 < d.sweeps → d.cooling.temperature t < d.cooling.temperature (t + 1)) := by
  have hhottest : 0 < d.hottest := Detector.isPositive_iff.1 (validate_eq_ok.1 hvalid).2.1
  have hstep : ∀ t, d.cooling.temperature (t + 1) ≤ d.cooling.temperature t ↔
      max d.coldest Scalar.epsilon ≤ d.hottest :=
    Cooling.temperature_succ_le_iff hexp hepsilon hhottest hsweeps
  refine ⟨fun net hsize => ?_, Cooling.temperature_zero hexp d.cooling,
    Cooling.temperature_last hexp hepsilon hhottest hsweeps, ?_, fun hlt t _ => ?_⟩
  · obtain ⟨run, hrun, htemperatures, setting, last, hlast, hlabels⟩ :=
      yields_anneal_temperatures (R := R) d net
    refine ⟨run, setting, last, ?_, htemperatures, hlast, hlabels⟩
    rw [Detector.runNetwork, hvalid, if_neg hsize, hrun]
    rfl
  · exact ⟨fun hfalls => (hstep 0).1 (hfalls 0 hsweeps), fun hle t _ => (hstep t).2 hle⟩
  · rw [← not_le, hstep, not_le]
    exact hlt

/-! ## Runs of real temperatures -/

theorem expLog_real : Scalar.ExpLog ℝ where
  exp_add := Real.exp_add
  exp_lt_exp _ _ := Real.exp_lt_exp.2
  exp_ln _ := Real.exp_log

theorem epsilon_real_pos : 0 < (Scalar.epsilon : ℝ) := by
  change (0 : ℝ) < 1 / 2 ^ 52
  positivity

/-- Eleven sweeps from the temperature one down to a coldest temperature that is negative. -/
noncomputable def freezing : Detector ℝ := ⟨1, .uncorrelated, 11, -1, 1, 0, 42, false⟩

theorem temperature_falls_raised :
    freezing.validate = .ok () ∧ 1 < freezing.sweeps ∧
    (∃ run, freezing.runNetwork ChaCha Network.path = .ok run ∧
      run.temperatures = temperatures freezing 0 11) ∧
    freezing.cooling.temperature 0 = 1 ∧ freezing.cooling.temperature 10 = 1 / 2 ^ 52 ∧
    ∀ t, t + 1 < 11 → freezing.cooling.temperature (t + 1) ≤ freezing.cooling.temperature t := by
  have hvalid : freezing.validate = .ok () := Detector.validate_of_pos one_pos one_pos
  have hsweeps : 1 < freezing.sweeps := by decide
  have hraised : max (-1) (Scalar.epsilon : ℝ) = 1 / 2 ^ 52 := by
    refine max_eq_right ?_
    exact (by norm_num : (-1 : ℝ) ≤ 0).trans epsilon_real_pos.le
  obtain ⟨hruns, hfirst, hlast, hfalls, -⟩ :=
    temperature_falls_iff ChaCha expLog_real epsilon_real_pos freezing hvalid hsweeps
  obtain ⟨run, _, _, hrun, htemperatures, -⟩ := hruns Network.path (by decide)
  refine ⟨hvalid, hsweeps, ⟨run, hrun, htemperatures⟩, hfirst, hlast.trans hraised, hfalls.2 ?_⟩
  change max (-1) (Scalar.epsilon : ℝ) ≤ 1
  rw [hraised]
  norm_num

/-- Settings can be used and heat up: some sweep is hotter than the one before it. -/
def Heats (d : Detector ℝ) : Prop :=
  d.validate = .ok () ∧ 1 < d.sweeps ∧
    ∃ t, t + 1 < d.sweeps ∧ d.cooling.temperature t < d.cooling.temperature (t + 1)

/-- Settings heat up whose coldest temperature is above the hottest one, and so do settings whose
temperatures are in order but both so low that the coldest one is raised above the hottest. -/
theorem temperature_rises :
    Heats ⟨1, .uncorrelated, 2, 2, 1, 0, 42, false⟩ ∧
      Heats ⟨1, .uncorrelated, 2, 1 / 2 ^ 61, 1 / 2 ^ 60, 0, 42, false⟩ := by
  have hheats : ∀ coldest hottest : ℝ, 0 < hottest → hottest < max coldest Scalar.epsilon →
      Heats ⟨1, .uncorrelated, 2, coldest, hottest, 0, 42, false⟩ := by
    intro coldest hottest hpos hlt
    refine ⟨Detector.validate_of_pos one_pos hpos, one_lt_two, 0, one_lt_two, ?_⟩
    have hnot := mt (Cooling.temperature_succ_le_iff expLog_real epsilon_real_pos hpos
      one_lt_two 0).1 (not_le.2 hlt)
    exact not_le.1 hnot
  constructor
  · exact hheats 2 1 one_pos (one_lt_two.trans_le (le_max_left _ _))
  · have hepsilon : (1 : ℝ) / 2 ^ 60 < Scalar.epsilon := by
      change (1 : ℝ) / 2 ^ 60 < 1 / 2 ^ 52
      norm_num
    exact hheats (1 / 2 ^ 61) (1 / 2 ^ 60) (by positivity) (hepsilon.trans_le (le_max_right _ _))

end Annealing

end Potts
