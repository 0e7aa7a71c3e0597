import Mathlib.Algebra.Order.Field.Basic
import Potts.Annealing.Run
import Potts.Proofs.Annealing.Sweep
import Potts.Proofs.Graph.Network

/-!
# Runs fail for their reasons only

A run of a detector on a graph never faults. It answers with an error when its input is refused, for
one of the reasons that `Refused` lists, and otherwise with a label in range for every vertex. This
holds for any meaning of the arithmetic and for any random source.
-/

namespace Potts

open Annealing Checked

variable {F R : Type} [Scalar F]

namespace Annealing

variable {setting : Setting F} {state : State F R}

theorem Consistent.yields_sweepsFrom [RandomSource R] (h : Consistent setting state)
    (d : Detector F) (count t : Nat) :
    Yields (sweepsFrom d setting count t state) fun last => Consistent setting last.2 := by
  induction count generalizing t state with
  | zero => exact yields_ok h
  | succ count ih =>
    rw [sweepsFrom]
    refine (h.yields_sweep (d.cooling.temperature t)).bind fun swept hswept => ?_
    exact (ih hswept.1 (t + 1)).bind fun last hlast => yields_pure hlast

/-- Annealing does not fault, and labels every vertex. -/
theorem yields_anneal [SeededSource R] (d : Detector F) (net : Network F) :
    Yields (anneal R d net) fun run => run.labels.length = net.size ∧
      ∀ label ∈ run.labels, label < d.labelCount net.size := by
  rw [anneal]
  refine (yields_start (R := R) d net).bind fun first hfirst => ?_
  obtain ⟨hnetwork, -, hlabels, -, hconsistent⟩ := hfirst
  refine (hconsistent.yields_sweepsFrom d d.sweeps 0).bind fun last hlast => yields_pure ?_
  refine ⟨?_, fun label hlabel => ?_⟩
  · change last.2.labels.toList.length = net.size
    rw [Array.length_toList, hlast.size_labels, hnetwork]
  · obtain ⟨v, hv⟩ := List.mem_iff_getElem?.1 hlabel
    rw [Array.getElem?_toList] at hv
    rw [← hlabels]
    exact hlast.label_lt v label hv

/-! ## Records -/

theorem map_records_of_sweepsFrom [RandomSource R] {β : Type} {d : Detector F}
    {f : SweepRecord F → β} {g : Nat → β}
    (hf : ∀ t outcome (after : State F R), f (.of d t outcome after) = g t) {count t : Nat}
    {out : List (SweepRecord F) × State F R} (h : sweepsFrom d setting count t state = .ok out) :
    out.1.map f = (List.range' t count).map g := by
  induction count generalizing t state out with
  | zero =>
    cases h
    rfl
  | succ count ih =>
    simp only [sweepsFrom, bind_eq_ok] at h
    obtain ⟨⟨outcome, after⟩, -, ⟨records, last⟩, hrest, hout⟩ := h
    cases hout
    rw [List.map_cons, hf, ih hrest, List.range'_succ, List.map_cons]

theorem map_records_of_anneal [SeededSource R] {β : Type} {d : Detector F} {net : Network F}
    {f : SweepRecord F → β} {g : Nat → β}
    (hf : ∀ t outcome (after : State F R), f (.of d t outcome after) = g t) {run : Run F}
    (h : anneal R d net = .ok run) : run.records.map f = (List.range' 0 d.sweeps).map g := by
  simp only [anneal, bind_eq_ok] at h
  obtain ⟨⟨setting, first⟩, -, ⟨records, last⟩, hsweeps, hrun⟩ := h
  cases hrun
  exact map_records_of_sweepsFrom hf hsweeps

end Annealing

namespace Detector

section Exact

variable {K : Type} [ExactScalar K] {d : Detector K}

theorem isPositive_iff {x : K} : isPositive x = true ↔ 0 < x := by
  have hfinite : Scalar.isFinite x = true := rfl
  rw [isPositive, hfinite, Bool.true_and, decide_eq_true_eq, Scalar.zero_eq]

theorem validate_of_pos (hresolution : 0 < d.resolution) (hhottest : 0 < d.hottest) :
    d.validate = .ok () :=
  validate_eq_ok.2 ⟨isPositive_iff.2 hresolution, isPositive_iff.2 hhottest, rfl⟩

end Exact

variable {d : Detector F} {g : Multigraph} {weights : Option (List F)}

/-- Why a run is refused: the settings are not valid, there is not one weight for each edge, a
weight is negative or not finite, that of a loop included, or there are no vertices. -/
def Refused (d : Detector F) (g : Multigraph) (weights : Option (List F)) : Prop :=
  (∃ e, d.validate = .error e) ∨ (∃ ws, weights = some ws ∧ ws.length ≠ g.edgeCount) ∨
    (∃ e ∈ Network.weightedEdges g weights,
      Scalar.isFinite e.weight = false ∨ e.weight < Scalar.zero) ∨ g.vertices = 0

theorem run_of_refused [SeededSource R] (h : Refused d g weights) :
    ∃ e, d.run R g weights = .error (.error e) := by
  rw [run]
  cases hvalidate : d.validate with
  | error e => exact ⟨e, rfl⟩
  | ok u =>
    by_cases hbad : ¬Network.FitsWeights g weights ∨
        ∃ e ∈ Network.weightedEdges g weights, e.isUsable = false
    · obtain ⟨e, he⟩ := Network.ofGraph_of_unusable hbad
      rw [he]
      exact ⟨e, rfl⟩
    · push Not at hbad
      obtain ⟨hfits, husable⟩ := hbad
      have hvertices : g.vertices = 0 := by
        rcases h with ⟨e, he⟩ | ⟨ws, hws, hlength⟩ | ⟨e, he, hweight⟩ | h
        · rw [hvalidate] at he
          cases he
        · exact absurd (hfits ws hws) hlength
        · refine absurd ?_ (husable e he)
          rcases hweight with hweight | hweight <;> simp [Edge.isUsable, hweight]
        · exact h
      obtain ⟨net, hnet, hsize⟩ := Network.ofGraph_of_usable hfits fun e he => by
        simpa using husable e he
      rw [hnet]
      refine ⟨.emptyInput, ?_⟩
      change d.runNetwork R net = _
      rw [runNetwork, hvalidate, if_pos (by rw [hsize, hvertices])]
      rfl

theorem run_of_not_refused [SeededSource R] (h : ¬Refused d g weights) :
    ∃ run, d.run R g weights = .ok run ∧ run.labels.length = g.vertices ∧
      ∀ label ∈ run.labels, label < d.labelCount g.vertices := by
  rw [Refused] at h
  push Not at h
  obtain ⟨hvalidate, hfits, husable, hvertices⟩ := h
  obtain ⟨net, hnet, hsize⟩ := Network.ofGraph_of_usable hfits fun e he => by
    obtain ⟨hfinite, hnegative⟩ := husable e he
    rw [Edge.isUsable, Bool.and_eq_true]
    exact ⟨by simpa using hfinite, by simpa using hnegative⟩
  have hvalid : d.validate = .ok () := by
    cases hd : d.validate with
    | error e => exact absurd hd (hvalidate e)
    | ok u => rfl
  obtain ⟨run, hrun, hlabels⟩ := yields_anneal (R := R) d net
  rw [hsize] at hlabels
  refine ⟨run, ?_, hlabels⟩
  rw [Detector.run, hvalid, hnet]
  change d.runNetwork R net = _
  rw [runNetwork, hvalid, if_neg (by rw [hsize]; exact hvertices), hrun]
  rfl

/-- A run answers with an error exactly when its input is refused, and else with one label in range
for each vertex; so it never faults. -/
theorem run_total (R : Type) [SeededSource R] (d : Detector F) (g : Multigraph)
    (weights : Option (List F)) :
    ((∃ e, d.run R g weights = .error (.error e)) ↔ Refused d g weights) ∧
    ((∃ run, d.run R g weights = .ok run ∧ run.labels.length = g.vertices ∧
      ∀ label ∈ run.labels, label < if d.labels = 0 then g.vertices else d.labels) ↔
        ¬Refused d g weights) := by
  refine ⟨⟨?_, run_of_refused⟩, ?_, run_of_not_refused⟩
  · rintro ⟨e, he⟩
    by_contra h
    obtain ⟨run, hrun, -⟩ := run_of_not_refused (R := R) h
    rw [hrun] at he
    cases he
  · rintro ⟨run, hrun, -⟩ h
    obtain ⟨e, he⟩ := run_of_refused (R := R) h
    rw [he] at hrun
    cases hrun

end Detector

end Potts
