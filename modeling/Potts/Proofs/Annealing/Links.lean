import Mathlib.Analysis.SpecialFunctions.Log.Basic
import Potts.Annealing.Trials
import Potts.Proofs.Annealing.Consistent
import Potts.Proofs.Failure.Renumber
import Potts.Proofs.NullModel.Links
import Potts.Proofs.Partition.Modularity
import Potts.Proofs.Scalar.Real
import Potts.Random.ChaCha

/-!
# Annealing reads links

Two networks with the same links have the same runs: the same random numbers are drawn, every vertex
chooses the same labels and every sweep reports the same. A run reads its network through the
neighbors of the vertices, and the null model is built from the links; the first lemmas follow this
through every step of a run. So detection does not depend on the direction of edges or on loops.
What does depend on them is the place of an edge in the list of edges, by which an error about a
weight names the edge.
-/

namespace Potts

namespace Annealing

open Checked

variable {F R : Type} [Scalar F] {setting : Setting F} {net net' : Network F}

/-! ## Sweeps -/

/-- The setting with another network. -/
def Setting.on (setting : Setting F) (net : Network F) : Setting F :=
  { setting with network := net }

theorem localWeights_sameLinks (h : net.SameLinks net') : localWeights net' = localWeights net := by
  funext labels v
  rw [localWeights, localWeights, h.neighborsAt_eq]

section Steps

variable (h : setting.network.SameLinks net')

include h

theorem patch_sameLinks (state : State F R) (v : Nat) (table : BoltzmannTable F) :
    patch (setting.on net') state v table = patch setting state v table := by
  have hweights : localWeights (setting.on net').network = localWeights setting.network :=
    localWeights_sameLinks h
  have hdegree : (setting.on net').network.degreeAt = setting.network.degreeAt := h.degreeAt_eq
  rw [patch, patch, hweights, hdegree]
  rfl

theorem chooseNext_sameLinks [RandomSource R] :
    chooseNext (R := R) (setting.on net') = chooseNext setting := by
  funext choices v
  simp only [chooseNext, propose, patch_sameLinks h]
  rfl

theorem moveVertex_sameLinks : moveVertex (R := R) (setting.on net') = moveVertex setting := by
  have hdegree : (setting.on net').network.degreeAt = setting.network.degreeAt := h.degreeAt_eq
  funext state move
  rw [moveVertex, moveVertex, hdegree]
  rfl

theorem sweep_sameLinks [RandomSource R] (state : State F R) (temperature : F) :
    sweep (setting.on net') state temperature = sweep setting state temperature := by
  have hsize : (setting.on net').network.size = setting.network.size := h.size_eq
  rw [sweep, sweep]
  simp only [choose, makeMoves, chooseNext_sameLinks h, moveVertex_sameLinks h, hsize]
  rfl

theorem sweepsFrom_sameLinks [RandomSource R] (d : Detector F) (count t : Nat)
    (state : State F R) :
    sweepsFrom d (setting.on net') count t state = sweepsFrom d setting count t state := by
  induction count generalizing t state with
  | zero => rfl
  | succ count ih => simp only [sweepsFrom, sweep_sameLinks h, ih]

end Steps

/-! ## Runs -/

theorem start_sameLinks [SeededSource R] (h : net.SameLinks net') (d : Detector F) :
    start (R := R) d net' = (fun first => (first.1.on net', first.2)) <$> start d net := by
  have hclasses : vertexClasses net' = vertexClasses net := by
    funext index
    rw [vertexClasses, vertexClasses, h.degrees_eq]
  have hstrengths : classStrengths net' = classStrengths net := by
    funext classes classOf
    rw [classStrengths, classStrengths, h.strengthAt_eq]
  simp only [start, h.size_eq, h.degreeClasses_eq, NullModel.ofLabels_sameLinks h, hclasses,
    hstrengths, map_bind]
  rfl

theorem anneal_sameLinks [SeededSource R] (h : net.SameLinks net') (d : Detector F) :
    anneal R d net' = anneal R d net := by
  obtain ⟨⟨setting, state⟩, hfirst, rfl, -⟩ := yields_start (R := R) d net
  dsimp only at h
  have hfirst' : start (R := R) d net' = .ok (setting.on net', state) := by
    rw [start_sameLinks h, hfirst]
    rfl
  rw [anneal, anneal, hfirst', hfirst, ok_bind, ok_bind]
  dsimp only
  rw [sweepsFrom_sameLinks h, h.size_eq, h.edgeCount_eq]
  rfl

end Annealing

/-! ## Answers -/

namespace Detector

open Annealing Network Potts.Partition

variable {F α : Type} [Scalar F] {net net' : Network F} {g g' : Multigraph}
  {weights weights' : Option (List F)} {place : Nat → Nat}

theorem mapError_validate (place : Nat → Nat) (d : Detector F) :
    (Failure.ofError d.validate).mapError (Failure.renumber place) =
      Failure.ofError d.validate := by
  rw [validate]
  split
  · rfl
  · split
    · rfl
    · split <;> rfl

theorem mapError_modularity (place : Nat → Nat) (net : Network F) (labels : List Nat) :
    (modularity net labels).mapError (Error.renumber place) = modularity net labels := by
  rw [modularity]
  split
  · rfl
  · split
    · rfl
    · dsimp only
      split <;> rfl

/-- An answer that reads the links of a network, and whose errors name no edge. -/
structure ReadsLinks (answer : Network F → Except (Failure F) α) : Prop where
  sameLinks : ∀ {net net' : Network F}, net.SameLinks net' → answer net' = answer net
  mapError_eq : ∀ (place : Nat → Nat) (net : Network F),
    (answer net).mapError (Failure.renumber place) = answer net

theorem readsLinks_runNetwork (R : Type) [SeededSource R] (d : Detector F) :
    ReadsLinks (d.runNetwork R) where
  sameLinks h := by rw [runNetwork, runNetwork, h.size_eq, anneal_sameLinks h]
  mapError_eq place net := by
    rw [runNetwork, mapError_bind, mapError_validate]
    refine congrArg (Failure.ofError d.validate >>= ·) (funext fun _ => ?_)
    split
    · rfl
    · exact Failure.mapError_ofFault place _

theorem readsLinks_make (R : Type) [SeededSource R] (d : Detector F) (number : Nat) :
    ReadsLinks fun net => Trial.make R d net number where
  sameLinks h := by
    simp only [Trial.make, (readsLinks_runNetwork R _).sameLinks h, modularity_sameLinks h]
  mapError_eq place net := by
    simp only [Trial.make, mapError_bind, (readsLinks_runNetwork R _).mapError_eq,
      Failure.mapError_ofError, mapError_modularity]
    rfl

/-- A number of trials on a network, and their winner. -/
def contest (R : Type) [SeededSource R] (d : Detector F) (count : Nat) (net : Network F) :
    Except (Failure F) (Contest F) := do
  if net.size = 0 then throw (.error .emptyInput)
  let trials ← (List.range count).mapM (Trial.make R d net)
  match Trial.winner? trials with
  | some winner => return ⟨trials, winner⟩
  | none => throw (.error .emptyInput)

theorem readsLinks_contest (R : Type) [SeededSource R] (d : Detector F) (count : Nat) :
    ReadsLinks (d.contest R count) where
  sameLinks {net net'} h := by
    have hmake : Trial.make R d net' = Trial.make R d net :=
      funext fun number => (readsLinks_make R d number).sameLinks h
    rw [contest, contest, h.size_eq, hmake]
  mapError_eq place net := by
    have hmake := fun number => (readsLinks_make R d number).mapError_eq place net
    rw [contest]
    split
    · rfl
    · rw [mapError_bind, mapError_mapM]
      simp only [hmake]
      refine congrArg ((List.range count).mapM (Trial.make R d net) >>= ·) (funext fun trials => ?_)
      cases Trial.winner? trials <;> rfl

theorem bestOfTrials_eq (R : Type) [SeededSource R] (d : Detector F) (g : Multigraph)
    (weights : Option (List F)) (count : Nat) :
    d.bestOfTrials R g weights count =
      if count = 0 then .error (.error (.invalidParameter .trials))
      else Failure.ofError d.validate >>= fun _ =>
        Failure.ofError (ofGraph g weights) >>= d.contest R count := by
  rfl

/-- Two answers are the same, but that an error about a weight names the edge by its place in the
list of its own graph. Such an error is about a link of both graphs. -/
structure SameAnswerAt (place : Nat → Nat) (g : Multigraph) (weights : Option (List F))
    (g' : Multigraph) (weights' : Option (List F)) (answer answer' : Except (Failure F) α) :
    Prop where
  eq : answer' = answer.mapError (Failure.renumber place)
  refusedLink : ∀ i x, answer = .error (.error (.invalidWeight i x)) →
    RefusedLink g weights g' weights' i (place i) x

theorem SameAnswerAt.refl {answer : Except (Failure F) α}
    (h : ∀ place : Nat → Nat, answer.mapError (Failure.renumber place) = answer) :
    SameAnswerAt place g weights g' weights' answer answer where
  eq := (h place).symm
  refusedLink i x hanswer := absurd hanswer (Failure.ne_invalidWeight h i x)

theorem SameAnswerAt.bind {β : Type} {answer answer' : Except (Failure F) α}
    {rest rest' : α → Except (Failure F) β}
    (h : SameAnswerAt place g weights g' weights' answer answer')
    (hrest : ∀ a, SameAnswerAt place g weights g' weights' (rest a) (rest' a)) :
    SameAnswerAt place g weights g' weights' (answer >>= rest) (answer' >>= rest') where
  eq := by
    rw [h.eq, mapError_bind]
    exact congrArg _ (funext fun a => (hrest a).eq)
  refusedLink i x hbind := by
    cases hanswer : answer with
    | error failure =>
      rw [hanswer] at hbind
      have hfailure : (Except.error failure : Except (Failure F) β) =
          .error (.error (.invalidWeight i x)) := hbind
      cases hfailure
      exact h.refusedLink i x hanswer
    | ok a =>
      rw [hanswer] at hbind
      exact (hrest a).refusedLink i x hbind

/-- An answer that reads links carries over to a graph with the same links, or the error does. -/
theorem ReadsLinks.bind_ofGraph {answer : Network F → Except (Failure F) α}
    (hanswer : ReadsLinks answer)
    (h : Corresponds place g weights g' weights') :
    SameAnswerAt place g weights g' weights' (Failure.ofError (ofGraph g weights) >>= answer)
      (Failure.ofError (ofGraph g' weights') >>= answer) := by
  rcases h with ⟨net, net', hnet, hnet', hlinks⟩ | ⟨i, x, hrefused, herror, herror'⟩
  · rw [hnet, hnet']
    have hsame : SameAnswerAt place g weights g' weights' (answer net) (answer net') := by
      rw [hanswer.sameLinks hlinks]
      exact .refl fun place => hanswer.mapError_eq place net
    exact hsame
  · rw [herror, herror']
    refine ⟨rfl, fun j y hanswer => ?_⟩
    cases hanswer
    exact hrefused

/-- The answers on two graphs are the same, but that an error about a weight names the edge by its
place in the list of its own graph. -/
structure SameAnswersAt (R : Type) [SeededSource R] (place : Nat → Nat) (g : Multigraph)
    (weights : Option (List F)) (g' : Multigraph) (weights' : Option (List F)) : Prop where
  run : ∀ d : Detector F,
    SameAnswerAt place g weights g' weights' (d.run R g weights) (d.run R g' weights')
  detect : weights = none → weights' = none → ∀ d : Detector F,
    SameAnswerAt place g weights g' weights' (d.detect R g) (d.detect R g')
  bestOfTrials : ∀ (d : Detector F) (count : Nat),
    SameAnswerAt place g weights g' weights' (d.bestOfTrials R g weights count)
      (d.bestOfTrials R g' weights' count)
  modularityOf : ∀ labels : List Nat,
    SameAnswerAt place g weights g' weights' (Failure.ofError (modularityOf g weights labels))
      (Failure.ofError (modularityOf g' weights' labels))

/-- The answers on two graphs are the same. -/
structure SameAnswers (R : Type) [SeededSource R] (g : Multigraph)
    (weights : Option (List F)) (g' : Multigraph) (weights' : Option (List F)) : Prop where
  run : ∀ d : Detector F, d.run R g' weights' = d.run R g weights
  detect : weights = none → weights' = none → ∀ d : Detector F, d.detect R g' = d.detect R g
  bestOfTrials : ∀ (d : Detector F) (count : Nat),
    d.bestOfTrials R g' weights' count = d.bestOfTrials R g weights count
  modularityOf : ∀ labels : List Nat,
    modularityOf g' weights' labels = modularityOf g weights labels

theorem readsLinks_modularity (labels : List Nat) :
    ReadsLinks fun net : Network F => Failure.ofError (modularity net labels) where
  sameLinks h := by rw [modularity_sameLinks h]
  mapError_eq place net := by rw [Failure.mapError_ofError, mapError_modularity]

theorem ofError_modularityOf (g : Multigraph) (weights : Option (List F)) (labels : List Nat) :
    Failure.ofError (modularityOf g weights labels) =
      Failure.ofError (ofGraph g weights) >>= fun net =>
        Failure.ofError (modularity net labels) := by
  rw [Partition.modularityOf]
  cases ofGraph g weights <;> rfl

theorem sameAnswersAt_of_corresponds (R : Type) [SeededSource R]
    (h : Corresponds place g weights g' weights') :
    SameAnswersAt R place g weights g' weights' := by
  have hvalidate (d : Detector F) : SameAnswerAt place g weights g' weights'
      (Failure.ofError d.validate) (Failure.ofError d.validate) :=
    .refl fun place => mapError_validate place d
  have hrun (d : Detector F) :
      SameAnswerAt place g weights g' weights' (d.run R g weights) (d.run R g' weights') :=
    (hvalidate d).bind fun _ => (readsLinks_runNetwork R d).bind_ofGraph h
  refine ⟨hrun, ?_, fun d count => ?_, fun labels => ?_⟩
  · rintro rfl rfl d
    exact (hrun d).bind fun _ => .refl fun _ => rfl
  · rw [bestOfTrials_eq, bestOfTrials_eq]
    split
    · exact .refl fun _ => rfl
    · exact (hvalidate d).bind fun _ => (readsLinks_contest R d count).bind_ofGraph h
  · rw [ofError_modularityOf, ofError_modularityOf]
    exact (readsLinks_modularity labels).bind_ofGraph h

theorem SameAnswerAt.answer_eq {answer answer' : Except (Failure F) α}
    (h : SameAnswerAt id g weights g' weights' answer answer') : answer' = answer := by
  rw [h.eq, Failure.renumber_id, mapError_id]

theorem SameAnswersAt.sameAnswers {R : Type} [SeededSource R]
    (h : SameAnswersAt R id g weights g' weights') : SameAnswers R g weights g' weights' where
  run d := (h.run d).answer_eq
  detect hnone hnone' d := (h.detect hnone hnone' d).answer_eq
  bestOfTrials d count := (h.bestOfTrials d count).answer_eq
  modularityOf labels := Failure.ofError_injective (h.modularityOf labels).answer_eq

theorem sameAnswers_of_usable (R : Type) [SeededSource R]
    (h : SameGraphLinks g weights g' weights')
    (husable : ∀ e ∈ links g weights, e.isUsable = true) :
    SameAnswers R g weights g' weights' := by
  obtain ⟨place, -, hcases⟩ := h.exists_corresponds
  refine (sameAnswersAt_of_corresponds R (Or.inl (hcases.resolve_right ?_))).sameAnswers
  rintro ⟨i, x, hrefused, -⟩
  obtain ⟨e, he, hunusable⟩ := hrefused.exists_mem_links
  rw [husable e he] at hunusable
  cases hunusable

/-- Direction and loops do not matter. On two graphs with the same links, and with usable weights
on all loops, the answers are the same if the weights of the links can be used; a list of ones gives
the same answers as no list. If some weight cannot be used, the answers are the same errors, but
that an error about a weight names the edge by its place: the places of the links correspond in
their order. Detection without weights is the same whatever the weights are, where a one can be used
as a weight. -/
theorem sameAnswers_of_sameLinks (R : Type) [SeededSource R]
    (h : SameGraphLinks g weights g' weights') :
    ((∀ e ∈ links g weights, e.isUsable = true) → SameAnswers R g weights g' weights') ∧
    (∃ place : Nat → Nat, linkPlaces g' weights' = (linkPlaces g weights).map place ∧
      SameAnswersAt R place g weights g' weights') ∧
    (Scalar.isFinite (Scalar.one : F) = true → ¬(Scalar.one : F) < Scalar.zero →
      ∀ d : Detector F, d.detect R g' = d.detect R g) ∧
    ∀ g : Multigraph, SameAnswers R g (some (List.replicate g.edgeCount (Scalar.one : F))) g none
    := by
  obtain ⟨place, hplace, hcases⟩ := h.exists_corresponds
  refine ⟨sameAnswers_of_usable R h, ⟨place, hplace, sameAnswersAt_of_corresponds R hcases⟩,
    fun hfinite hone => ?_, fun g => ?_⟩
  · refine (sameAnswers_of_usable R (h.unweighted hfinite hone) fun e he => ?_).detect rfl rfl
    exact isUsable_of_mem_weightedEdges_none hfinite hone (List.mem_of_mem_filter he)
  · refine ⟨fun d => ?_, fun hnone => ?_, fun d count => ?_, fun labels => ?_⟩
    · rw [Detector.run, Detector.run, ofGraph_ones]
    · cases hnone
    · rw [bestOfTrials_eq, bestOfTrials_eq, ofGraph_ones]
    · rw [Partition.modularityOf, Partition.modularityOf, ofGraph_ones]

/-- Two vertices that are joined. -/
def segment : Multigraph := ⟨2, [(0, 1)], false, by decide⟩

/-- The same two vertices, joined from the other one, behind a loop. -/
def loopedSegment : Multigraph := ⟨2, [(0, 0), (1, 0)], true, by decide⟩

theorem sameGraphLinks_segment (x : ℝ) :
    SameGraphLinks segment (some [x]) loopedSegment (some [1, x]) where
  vertices_eq := rfl
  fits ws hws := by
    cases hws
    rfl
  fits' ws hws := by
    cases hws
    rfl
  same := List.Forall₂.cons ⟨rfl, Or.inr ⟨rfl, rfl⟩⟩ List.Forall₂.nil
  loops e he hloop := by
    rw [List.mem_singleton.1 he] at hloop
    cases hloop
  loops' e he hloop := by
    rcases List.mem_cons.1 he with rfl | he
    · exact Edge.isUsable_iff.2 zero_le_one
    · rw [List.mem_singleton.1 he] at hloop
      cases hloop

theorem sameAnswers_segment :
    SameAnswers ChaCha segment (some [(1 : ℝ)]) loopedSegment (some [1, 1]) ∧
      ∀ d : Detector ℝ, d.detect ChaCha loopedSegment = d.detect ChaCha segment := by
  obtain ⟨hanswers, -, hdetect, -⟩ := sameAnswers_of_sameLinks ChaCha (sameGraphLinks_segment 1)
  have hone : ¬(Scalar.one : ℝ) < Scalar.zero := by
    rw [Scalar.one_eq, Scalar.zero_eq]
    exact not_lt.2 zero_le_one
  refine ⟨hanswers fun e he => ?_, hdetect rfl hone⟩
  rw [List.mem_singleton.1 he]
  exact Edge.isUsable_iff.2 zero_le_one

/-- The loop shifts the place at which a weight is refused. -/
theorem modularityOf_segment_ne :
    SameGraphLinks segment (some [(-1 : ℝ)]) loopedSegment (some [1, -1]) ∧
      modularityOf segment (some [(-1 : ℝ)]) [0, 1] = .error (.invalidWeight 0 (-1)) ∧
      modularityOf loopedSegment (some [(1 : ℝ), -1]) [0, 1] = .error (.invalidWeight 1 (-1)) ∧
      modularityOf loopedSegment (some [(1 : ℝ), -1]) [0, 1] ≠
        modularityOf segment (some [(-1 : ℝ)]) [0, 1] := by
  have hlinks := sameGraphLinks_segment (-1)
  have hone : ∀ a b : Nat, (Edge.mk a b (1 : ℝ)).isUsable = true := fun _ _ =>
    Edge.isUsable_iff.2 zero_le_one
  have hminus : ∀ a b : Nat, (Edge.mk a b (-1 : ℝ)).isUsable = false := by
    intro a b
    rw [← Bool.not_eq_true, Edge.isUsable_iff]
    norm_num
  have hbad : (weightedEdges segment (some [(-1 : ℝ)])).zipIdx.find? (fun e => !e.1.isUsable) =
      some (⟨0, 1, -1⟩, 0) := by
    simp [weightedEdges, segment, hminus]
  have hbad' : (weightedEdges loopedSegment (some [(1 : ℝ), -1])).zipIdx.find?
      (fun e => !e.1.isUsable) = some (⟨1, 0, -1⟩, 1) := by
    simp [weightedEdges, loopedSegment, hone, hminus]
  have herror : modularityOf segment (some [(-1 : ℝ)]) [0, 1] =
      .error (.invalidWeight 0 (-1)) := by
    rw [modularityOf, ofGraph_of_fits hlinks.fits, build_eq_error _ hbad]
    rfl
  have herror' : modularityOf loopedSegment (some [(1 : ℝ), -1]) [0, 1] =
      .error (.invalidWeight 1 (-1)) := by
    rw [modularityOf, ofGraph_of_fits hlinks.fits', build_eq_error _ hbad']
    rfl
  refine ⟨hlinks, herror, herror', fun heq => ?_⟩
  rw [herror, herror'] at heq
  cases heq

end Detector

end Potts
