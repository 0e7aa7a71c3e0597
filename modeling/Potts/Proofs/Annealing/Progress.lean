import Potts.Proofs.Annealing.Run
import Potts.Proofs.Scalar.Real
import Potts.Random.ChaCha

/-!
# Progress in percent

A report tells the share of the sweeps that is done in whole percent. Along a run these percentages
never fall, they are at most a hundred, and they are a hundred after the last sweep only. But shares
are rounded down, so a run begins with reports of zero percent if it makes more than a hundred
sweeps, as the standard settings do. `runs_progress` says so of all runs.
-/

namespace Potts

open Annealing

variable {F R : Type} [Scalar F]

/-! ## Rounded shares -/

namespace SweepReport

variable {t t' n : Nat}

theorem percentDone_le (ht : t < n) : percentDone t n ≤ 100 :=
  Nat.div_le_of_le_mul (Nat.mul_le_mul_right 100 ht)

theorem percentDone_mono (n : Nat) (h : t ≤ t') : percentDone t n ≤ percentDone t' n :=
  Nat.div_le_div_right (Nat.mul_le_mul_right 100 (Nat.succ_le_succ h))

theorem percentDone_eq_hundred_iff (ht : t < n) : percentDone t n = 100 ↔ t + 1 = n := by
  have hpos : 0 < n := Nat.zero_lt_of_lt ht
  have hhundred : 100 ≤ percentDone t n ↔ 100 * n ≤ (t + 1) * 100 := Nat.le_div_iff_mul_le hpos
  have hle := percentDone_le ht
  omega

theorem percentDone_pos_iff (ht : t < n) : 0 < percentDone t n ↔ n ≤ (t + 1) * 100 :=
  Nat.div_pos_iff.trans (and_iff_right (Nat.zero_lt_of_lt ht))

end SweepReport

/-! ## Percentages of a run -/

/-- Percentages as the reports of `n` sweeps tell them, one after the other. -/
structure Progress (n : Nat) (percents : List Nat) : Prop where
  length_eq : percents.length = n
  le_hundred : ∀ p ∈ percents, p ≤ 100
  ascending : percents.Pairwise (· ≤ ·)
  eq_hundred_iff : ∀ t p : Nat, percents[t]? = some p → (p = 100 ↔ t + 1 = n)
  /-- The first reports tell zero percent, unless there are few sweeps. -/
  pos_iff : ∀ t p : Nat, percents[t]? = some p → (1 ≤ p ↔ n ≤ (t + 1) * 100)
  all_pos_iff : (∀ p ∈ percents, 1 ≤ p) ↔ n ≤ 100

theorem progress_percentDone (n : Nat) :
    Progress n ((List.range' 0 n).map (SweepReport.percentDone · n)) := by
  have hget : ∀ t p : Nat, ((List.range' 0 n).map (SweepReport.percentDone · n))[t]? = some p →
      t < n ∧ SweepReport.percentDone t n = p := by
    intro t p hp
    rw [← List.range_eq_range', List.getElem?_map] at hp
    obtain ⟨t', ht', rfl⟩ := Option.map_eq_some_iff.1 hp
    obtain ⟨hlt, rfl⟩ := List.getElem?_eq_some_iff.1 ht'
    rw [List.length_range] at hlt
    rw [List.getElem_range]
    exact ⟨hlt, rfl⟩
  have hmem : ∀ p ∈ (List.range' 0 n).map (SweepReport.percentDone · n),
      ∃ t < n, SweepReport.percentDone t n = p := by
    intro p hp
    obtain ⟨t, ht⟩ := List.mem_iff_getElem?.1 hp
    exact ⟨t, hget t p ht⟩
  refine ⟨?_, fun p hp => ?_, ?_, fun t p hp => ?_, fun t p hp => ?_, ?_⟩
  · rw [List.length_map, List.length_range']
  · obtain ⟨t, ht, rfl⟩ := hmem p hp
    exact SweepReport.percentDone_le ht
  · rw [← List.range_eq_range', List.pairwise_map]
    exact List.pairwise_lt_range.imp fun h => SweepReport.percentDone_mono n h.le
  · obtain ⟨ht, rfl⟩ := hget t p hp
    exact SweepReport.percentDone_eq_hundred_iff ht
  · obtain ⟨ht, rfl⟩ := hget t p hp
    exact SweepReport.percentDone_pos_iff ht
  · constructor
    · intro hall
      rcases Nat.eq_zero_or_pos n with rfl | hn
      · exact Nat.zero_le _
      -- the first report tells the least percentage
      have hfirst : SweepReport.percentDone 0 n ∈
          (List.range' 0 n).map (SweepReport.percentDone · n) :=
        List.mem_map_of_mem (List.mem_range'_1.2 ⟨Nat.le_refl 0, by omega⟩)
      have hpos := (SweepReport.percentDone_pos_iff hn).1 (hall _ hfirst)
      omega
    · intro hn p hp
      obtain ⟨t, ht, rfl⟩ := hmem p hp
      exact (SweepReport.percentDone_pos_iff ht).2 (by omega)

namespace Annealing

/-- The percentages that the reports of a run tell. -/
def Run.percents (run : Run F) : List Nat := run.records.map fun record => record.report.percent

theorem progress_of_anneal [SeededSource R] {d : Detector F} {net : Network F} {run : Run F}
    (h : anneal R d net = .ok run) : Progress d.sweeps run.percents := by
  have hpercents : run.percents = (List.range' 0 d.sweeps).map
      (SweepReport.percentDone · d.sweeps) :=
    map_records_of_anneal (fun _ _ _ => rfl) h
  rw [hpercents]
  exact progress_percentDone d.sweeps

end Annealing

namespace Detector

variable {d : Detector F} {net : Network F} {run : Run F}

theorem anneal_of_runNetwork [SeededSource R] (h : d.runNetwork R net = .ok run) :
    anneal R d net = .ok run := by
  rw [runNetwork] at h
  cases hvalid : d.validate with
  | error e =>
    rw [hvalid] at h
    cases h
  | ok u =>
    by_cases hsize : net.size = 0
    · rw [hvalid, if_pos hsize] at h
      cases h
    · cases hanneal : anneal R d net with
      | error fault =>
        rw [hvalid, if_neg hsize, hanneal] at h
        cases h
      | ok run' =>
        rw [hvalid, if_neg hsize, hanneal] at h
        cases h
        rfl

theorem exists_runNetwork_of_run [SeededSource R] {g : Multigraph} {weights : Option (List F)}
    (h : d.run R g weights = .ok run) :
    ∃ net, Network.ofGraph g weights = .ok net ∧ d.runNetwork R net = .ok run := by
  rw [Detector.run] at h
  cases hvalid : d.validate with
  | error e =>
    rw [hvalid] at h
    cases h
  | ok u =>
    cases hnet : Network.ofGraph g weights with
    | error e =>
      rw [hvalid, hnet] at h
      cases h
    | ok net =>
      rw [hvalid, hnet] at h
      exact ⟨net, rfl, h⟩

/-- A run with valid settings on a network that has vertices, and a run on a graph that is not
refused, report percentages that never fall and are at most a hundred, and a hundred after the last
sweep only. None of them is zero exactly when there are no more than a hundred sweeps. -/
theorem runs_progress (R : Type) [SeededSource R] (d : Detector F) :
    (∀ net : Network F, d.validate = .ok () → net.size ≠ 0 →
      ∃ run, d.runNetwork R net = .ok run ∧ Progress d.sweeps run.percents) ∧
    ∀ (g : Multigraph) (weights : Option (List F)), ¬d.Refused g weights →
      ∃ run, d.run R g weights = .ok run ∧ Progress d.sweeps run.percents := by
  constructor
  · intro net hvalid hsize
    obtain ⟨run, hrun, -⟩ := yields_anneal (R := R) d net
    refine ⟨run, ?_, progress_of_anneal hrun⟩
    rw [runNetwork, hvalid, if_neg hsize, hrun]
    rfl
  · intro g weights hrefused
    obtain ⟨run, hrun, -⟩ := run_of_not_refused (R := R) hrefused
    obtain ⟨net, -, hnet⟩ := exists_runNetwork_of_run hrun
    exact ⟨run, hrun, progress_of_anneal (anneal_of_runNetwork hnet)⟩

/-- One sweep more than a hundred. -/
noncomputable def patient : Detector ℝ := ⟨1, .uncorrelated, 101, 1, 1, 0, 42, false⟩

/-- With a hundred and one sweeps the first report of a run on the path with three vertices tells
zero percent. -/
theorem percents_patient :
    patient.validate = .ok () ∧ ∃ run, patient.runNetwork ChaCha Network.path = .ok run ∧
      run.percents[0]? = some 0 ∧ ¬∀ p ∈ run.percents, 1 ≤ p ∧ p ≤ 100 := by
  have hvalid : patient.validate = .ok () := validate_of_pos one_pos one_pos
  have hsize : Network.path.size ≠ 0 := by decide
  obtain ⟨run, hanneal, -⟩ := yields_anneal (R := ChaCha) patient Network.path
  have hpercents : run.percents = (List.range' 0 101).map (SweepReport.percentDone · 101) :=
    map_records_of_anneal (fun _ _ _ => rfl) hanneal
  have hfirst : run.percents[0]? = some 0 := by
    rw [hpercents]
    rfl
  refine ⟨hvalid, run, ?_, hfirst, fun hall => ?_⟩
  · rw [runNetwork, hvalid, if_neg hsize, hanneal]
    rfl
  · exact absurd (hall 0 (List.mem_of_getElem? hfirst)).1 (by decide)

end Detector

end Potts
