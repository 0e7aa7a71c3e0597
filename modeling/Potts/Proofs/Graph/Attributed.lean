import Potts.Graph.Attributed
import Potts.Proofs.Annealing.Links
import Potts.Proofs.Annealing.Run
import Potts.Proofs.Property.Store
import Potts.Proofs.Scalar.Real
import Potts.Random.ChaCha

/-!
# Detection writes all or nothing

A detection on a graph with property maps either is refused, with an error and without a change to
the graph or to any of its maps, or it writes the labels that a run finds under the name it was
given, and nothing else. What was written can be read back: its modularity is that of the labels of
the run. All this holds whatever the maps are, in particular for maps that no longer fit the graph.
-/

namespace Potts

open Annealing

namespace AttributedGraph

variable {F R : Type} [Scalar F] {g : AttributedGraph F} {d : Detector F} {weight : Option String}
  {property : String}

/-! ## Why a detection is refused -/

/-- Why a detection is refused: the weights are named, but the map of the name does not hold one
number for each edge; or a run with the weights is refused. -/
def Refuses (g : AttributedGraph F) (d : Detector F) (weight : Option String) : Prop :=
  (∃ name, weight = some name ∧ ¬g.properties.HoldsWeights name g.graph.edgeCount) ∨
    ∃ ws, g.weights weight = .ok ws ∧ d.Refused g.graph ws

theorem weights_eq_ok_iff :
    (∃ ws, g.weights weight = .ok ws) ↔
      ∀ name, weight = some name → g.properties.HoldsWeights name g.graph.edgeCount := by
  cases weight with
  | none =>
    refine ⟨fun _ name hname => ?_, fun _ => ⟨none, rfl⟩⟩
    cases hname
  | some name =>
    have hread : (∃ ws, g.properties.edgeWeights name g.graph.edgeCount = .ok ws) ↔
        g.properties.HoldsWeights name g.graph.edgeCount := PropertyStore.edgeWeights_eq_ok_iff
    constructor
    · rintro ⟨ws, hws⟩ name' hname'
      cases hname'
      refine hread.1 ?_
      cases hweights : g.properties.edgeWeights name g.graph.edgeCount with
      | ok ws => exact ⟨ws, rfl⟩
      | error e =>
        rw [weights, hweights] at hws
        cases hws
    · intro h
      obtain ⟨ws, hws⟩ := hread.2 (h name rfl)
      exact ⟨some ws, by rw [weights, hws]; rfl⟩

/-- The run that a detection makes with the weights that it reads. -/
def found (R : Type) [SeededSource R] (g : AttributedGraph F) (d : Detector F)
    (weight : Option String) : Except (Failure F) (Run F) :=
  Failure.ofError (g.weights weight) >>= d.run R g.graph

theorem found_of_refuses [SeededSource R] (h : g.Refuses d weight) :
    ∃ e, g.found R d weight = .error (.error e) := by
  rw [found]
  rcases h with ⟨name, rfl, hmap⟩ | ⟨ws, hws, hrefused⟩
  · cases hweights : g.weights (some name) with
    | error e => exact ⟨e, rfl⟩
    | ok ws => exact absurd (weights_eq_ok_iff.1 ⟨ws, hweights⟩ name rfl) hmap
  · rw [hws]
    exact Detector.run_of_refused hrefused

theorem found_of_not_refuses [SeededSource R] (h : ¬g.Refuses d weight) :
    ∃ ws run, g.weights weight = .ok ws ∧ d.run R g.graph ws = .ok run ∧
      g.found R d weight = .ok run ∧ run.labels.length = g.graph.vertices ∧
      ∀ label ∈ run.labels, label < d.labelCount g.graph.vertices := by
  rw [Refuses, not_or] at h
  obtain ⟨hmap, hrun⟩ := h
  push Not at hmap hrun
  obtain ⟨ws, hws⟩ := weights_eq_ok_iff.2 hmap
  obtain ⟨run, hrun, hlength, hlabels⟩ := Detector.run_of_not_refused (R := R) (hrun ws hws)
  exact ⟨ws, run, hws, hrun, by rw [found, hws]; exact hrun, hlength, hlabels⟩

/-! ## What a detection does -/

omit [Scalar F] in
theorem run_check_bind {α β : Type} (r : Except (Failure F) α) (f : α → Edit F β) :
    (Edit.check r >>= f).run.run g =
      match r with
      | .error failure => (.error failure, g)
      | .ok a => (f a).run.run g := by
  cases r <;> rfl

/-- The graph with the labels of a run under a name. -/
def label (g : AttributedGraph F) (property : String) (run : Run F) : AttributedGraph F :=
  g.setProperty property ⟨.vertex, .integer (run.labels.map PropertyStore.storedLabel)⟩

theorem run_detect (R : Type) [SeededSource R] (g : AttributedGraph F) (d : Detector F)
    (weight : Option String) (property : String) :
    (detect R d weight property).run.run g =
      match g.found R d weight with
      | .error failure => (.error failure, g)
      | .ok run => (.ok ⟨run, g.properties.contains property⟩, g.label property run) := by
  have hread : (detect R d weight property).run.run g =
      (Edit.check (Failure.ofError (g.weights weight)) >>= fun ws =>
        Edit.check (d.run R g.graph ws) >>= fun run => do
          set (g.label property run)
          return ⟨run, g.properties.contains property⟩ : Edit F (Detection F)).run.run g := rfl
  rw [hread, run_check_bind, found]
  cases Failure.ofError (g.weights weight) with
  | error failure => rfl
  | ok ws =>
    have hrun : (Except.ok ws >>= d.run R g.graph) = d.run R g.graph ws := rfl
    rw [hrun]
    refine (run_check_bind (d.run R g.graph ws) _).trans ?_
    cases d.run R g.graph ws <;> rfl

section Label

variable {run : Run F}

omit [Scalar F] in
theorem get?_label (name : String) :
    (g.label property run).properties.get? name =
      if name = property then
        some ⟨.vertex, .integer (run.labels.map PropertyStore.storedLabel)⟩
      else g.properties.get? name :=
  PropertyStore.get?_insert ..

theorem weights_label (h : weight ≠ some property) :
    (g.label property run).weights weight = g.weights weight := by
  cases weight with
  | none => rfl
  | some name =>
    have hname : name ≠ property := fun hname => h (congrArg some hname)
    rw [weights, weights]
    exact congrArg (some <$> ·) (PropertyStore.edgeWeights_insert_of_ne _ _ hname)

theorem modularity_label {ws : Option (List F)} (hweight : weight ≠ some property)
    (hws : g.weights weight = .ok ws) (hlength : run.labels.length = g.graph.vertices)
    (hlabels : ∀ label ∈ run.labels, label < 2 ^ 63) :
    (g.label property run).modularity weight property =
      Partition.modularityOf g.graph ws run.labels := by
  have hget : (g.label property run).properties.get? property =
      some ⟨.vertex, .integer (run.labels.map Int.ofNat)⟩ := by
    rw [get?_label, if_pos rfl, PropertyStore.map_storedLabel hlabels]
  have hread := PropertyStore.vertexLabels_of_get? hget
  rw [hlength] at hread
  rw [modularity, weights_label hweight, hws]
  change ((g.label property run).properties.vertexLabels property g.graph.vertices >>= _) = _
  rw [hread]
  rfl

end Label

/-- What a detection that is not refused did: the graph and the maps of other names are as before,
and the name holds the labels of a run, one for each vertex, which are read as they were written. -/
structure Labeled (R : Type) [SeededSource R] (d : Detector F) (weight : Option String)
    (property : String) (g : AttributedGraph F) (detection : Detection F)
    (after : AttributedGraph F) : Prop where
  graph_eq : after.graph = g.graph
  get?_of_ne : ∀ name ≠ property, after.properties.get? name = g.properties.get? name
  get?_property : after.properties.get? property =
    some ⟨.vertex, .integer (detection.run.labels.map Int.ofNat)⟩
  length_labels : detection.run.labels.length = g.graph.vertices
  replaced_eq : detection.replaced = g.properties.contains property
  run_eq : ∃ ws, g.weights weight = .ok ws ∧ d.run R g.graph ws = .ok detection.run ∧
    (weight ≠ some property → after.modularity weight property =
      Partition.modularityOf g.graph ws detection.run.labels)

/-- A detection either fails for a reason of `Refuses`, with an error, and nothing is changed, or it
writes the labels of a run under the name and nothing else. Numbers of vertices and of labels have
to be in the range of stored numbers. -/
theorem detect_writes_all_or_nothing (R : Type) [SeededSource R] (g : AttributedGraph F)
    (d : Detector F) (weight : Option String) (property : String) (hlabels : d.labels < 2 ^ 63)
    (hvertices : g.graph.vertices ≤ 2 ^ 63) :
    match (detect R d weight property).run.run g with
    | (.error failure, after) =>
      after = g ∧ (∃ e, failure = .error e) ∧ g.Refuses d weight
    | (.ok detection, after) =>
      Labeled R d weight property g detection after ∧ ¬g.Refuses d weight := by
  rw [run_detect]
  by_cases hrefuses : g.Refuses d weight
  · obtain ⟨e, he⟩ := found_of_refuses (R := R) hrefuses
    rw [he]
    exact ⟨rfl, ⟨e, rfl⟩, hrefuses⟩
  · obtain ⟨ws, run, hws, hrun, hfound, hlength, hlt⟩ :=
      found_of_not_refuses (R := R) hrefuses
    have hstored : ∀ label ∈ run.labels, label < 2 ^ 63 := by
      intro label hlabel
      have hcount := hlt label hlabel
      rw [Detector.labelCount] at hcount
      split at hcount <;> omega
    rw [hfound]
    refine ⟨?_, hrefuses⟩
    exact {
      graph_eq := rfl
      get?_of_ne := fun name hname => by rw [get?_label, if_neg hname]
      get?_property := by rw [get?_label, if_pos rfl, PropertyStore.map_storedLabel hstored]
      length_labels := hlength
      replaced_eq := rfl
      run_eq := ⟨ws, hws, hrun, fun hweight => modularity_label hweight hws hlength hstored⟩ }

/-- Two joined vertices with a weight for their edge. -/
noncomputable def weightedSegment : AttributedGraph ℝ :=
  ⟨Detector.segment, PropertyStore.empty.insert "w" ⟨.edge, .real [1]⟩⟩

theorem detect_writes_weightedSegment :
    ∃ detection after, (detect ChaCha (⟨1, .uncorrelated, 1, 1, 1, 9, 42, false⟩ : Detector ℝ)
      (some "w") "c").run.run weightedSegment = (.ok detection, after) ∧
      after.properties.get? "w" = some ⟨.edge, .real [1]⟩ ∧
      after.modularity (some "w") "c" =
        Partition.modularityOf Detector.segment (some [1]) detection.run.labels := by
  have hmap : weightedSegment.properties.get? "w" = some ⟨.edge, .real [1]⟩ := by
    rw [weightedSegment, PropertyStore.get?_insert, if_pos rfl]
  have hws : weightedSegment.weights (some "w") = .ok (some [1]) := by
    rw [weights, PropertyStore.edgeWeights, PropertyStore.find_of_get? hmap]
    rfl
  have hrefuses : ¬weightedSegment.Refuses ⟨1, .uncorrelated, 1, 1, 1, 9, 42, false⟩
      (some "w") := by
    rintro (⟨name, hname, hholds⟩ | ⟨ws, hread, hrefused⟩)
    · cases hname
      exact hholds ⟨_, [1], hmap, rfl, rfl⟩
    · rw [hws] at hread
      cases hread
      rcases hrefused with ⟨e, he⟩ | ⟨ws, hlist, hlength⟩ | ⟨e, he, hbad⟩ | hvertices
      · rw [Detector.validate_of_pos one_pos one_pos] at he
        cases he
      · cases hlist
        exact hlength rfl
      · rw [List.mem_singleton.1 he, Scalar.zero_eq] at hbad
        rcases hbad with hbad | hbad
        · cases hbad
        · exact absurd hbad (not_lt.2 zero_le_one)
      · cases hvertices
  have h := detect_writes_all_or_nothing ChaCha weightedSegment
    ⟨1, .uncorrelated, 1, 1, 1, 9, 42, false⟩ (some "w") "c" (by decide) (by decide)
  revert h
  split
  · rintro ⟨-, -, h⟩
    exact absurd h hrefuses
  · rename_i detection after hrun
    rintro ⟨h, -⟩
    obtain ⟨ws, hread, -, hmodularity⟩ := h.run_eq
    rw [hws] at hread
    cases hread
    refine ⟨detection, after, hrun, ?_, hmodularity (by decide)⟩
    rw [h.get?_of_ne "w" (by decide), hmap]

end AttributedGraph

end Potts
