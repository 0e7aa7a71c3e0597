import Potts.Proofs.Annealing.Trials
import Potts.Proofs.Partition.Canonical

/-!
# Scores of detected communities

Modularity depends on the partition only, and detection renames the labels of a run without changing
their partition. So it does not matter whether the labels of a run are scored or the communities
that are detected, with any weights and for any meaning of the arithmetic.
-/

namespace Potts

open Annealing Potts.Partition

variable {F : Type} [Scalar F]

theorem Partition.SamePartition.modularityOf_eq {labels labels' : List Nat}
    (h : SamePartition labels labels') (g : Multigraph) (weights : Option (List F)) :
    modularityOf g weights labels' = modularityOf g weights labels := by
  rw [modularityOf, modularityOf]
  exact bind_congr fun net => h.modularity_eq net

namespace Detector

variable {d : Detector F} {g : Multigraph}

theorem detect_of_run {R : Type} [SeededSource R] {run : Run F} (h : d.run R g none = .ok run) :
    d.detect R g = .ok (canonical run.labels) := by
  rw [detect, h]
  rfl

/-- Any two lists of labels of the same partition have the same modularity, and the communities
that are detected score as the labels of the run do. -/
theorem modularity_samePartition (R : Type) [SeededSource R] :
    (∀ (net : Network F) (labels labels' : List Nat), SamePartition labels labels' →
      modularity net labels' = modularity net labels) ∧
    ∀ (d : Detector F) (g : Multigraph) (run : Run F), d.run R g none = .ok run →
      ∃ labels, d.detect R g = .ok labels ∧ SamePartition run.labels labels ∧
        ∀ weights : Option (List F),
          modularityOf g weights labels = modularityOf g weights run.labels := by
  refine ⟨fun net labels labels' h => h.modularity_eq net, fun d g run hrun => ?_⟩
  have hsame := samePartition_canonical run.labels
  exact ⟨_, detect_of_run hrun, hsame, fun weights => hsame.modularityOf_eq g weights⟩

theorem modularity_samePartition_segment :
    modularity joined [7, 3] = modularity joined [0, 1] ∧
      ∃ (run : Run Float) (labels : List Nat), standard.run ChaCha segment none = .ok run ∧
        standard.detect ChaCha segment = .ok labels ∧
        modularityOf (F := Float) segment none labels = modularityOf segment none run.labels := by
  obtain ⟨hmodularity, hdetect⟩ := modularity_samePartition (F := Float) ChaCha
  have hsame : SamePartition [0, 1] [7, 3] := ⟨rfl, by decide⟩
  refine ⟨hmodularity joined [0, 1] [7, 3] hsame, ?_⟩
  have hrefused : ¬Refused standard segment none := by
    rintro (⟨e, he⟩ | ⟨ws, hws, -⟩ | ⟨e, he, hbad⟩ | hvertices)
    · cases he
    · cases hws
    · rw [List.mem_singleton.1 he] at hbad
      revert hbad
      decide
    · cases hvertices
  obtain ⟨run, hrun, -⟩ := run_of_not_refused (R := ChaCha) hrefused
  obtain ⟨labels, hlabels, -, hscore⟩ := hdetect standard segment run hrun
  exact ⟨run, labels, hrun, hlabels, hscore none⟩

end Detector

end Potts
