import Mathlib.Data.List.Find
import Mathlib.Data.List.Forall2
import Mathlib.Data.List.Nodup
import Potts.Graph.DegreeClass
import Potts.Proofs.Graph.Incidence
import Potts.Proofs.Graph.Network

/-!
# Links

A link is an edge that is no loop. Two graphs have the same links if their links agree in their
order, their weights and their two ends, where each link may be read from either end; nothing is
asked of the loops, and of which graph is directed. Their networks then differ in the ends from
which the edges are read, and in nothing else: the neighbors of every vertex come in the same order
with the same weights. A weight that cannot be used is refused in both, at the same link.
-/

namespace Potts

variable {F : Type}

/-! ## Edges -/

namespace Edge

variable {e e' : Edge F}

/-- Two edges with one weight and the same two ends. -/
def SameLink (e e' : Edge F) : Prop :=
  e'.weight = e.weight ∧
    (e'.source = e.source ∧ e'.target = e.target ∨ e'.source = e.target ∧ e'.target = e.source)

/-- The edge with the weight that it has where no weights are given. -/
def unweighted [Scalar F] (e : Edge F) : Edge F := ⟨e.source, e.target, Scalar.one⟩

/-- The edge read from its other end. -/
def reverse (e : Edge F) : Edge F := ⟨e.target, e.source, e.weight⟩

theorem SameLink.eq_or_eq_reverse (h : e.SameLink e') : e' = e ∨ e' = e.reverse := by
  cases e
  cases e'
  obtain ⟨hweight, ⟨hsource, htarget⟩ | ⟨hsource, htarget⟩⟩ := h
  all_goals
    dsimp only at hweight hsource htarget
    subst hweight hsource htarget
  · exact Or.inl rfl
  · exact Or.inr rfl

theorem SameLink.across_eq (h : e.SameLink e') (v : Nat) : e'.across v = e.across v := by
  rcases h.eq_or_eq_reverse with rfl | rfl
  · rfl
  · rw [across, across, reverse]
    by_cases hsource : e.source = v <;> by_cases htarget : e.target = v <;>
      simp [hsource, htarget]

theorem SameLink.isUsable_eq [Scalar F] (h : e.SameLink e') : e'.isUsable = e.isUsable := by
  rw [isUsable, isUsable, h.1]

end Edge

theorem map_eq_map_of_forall₂ {α β γ : Type} {R : α → β → Prop} {f : α → γ} {g : β → γ} {l : List α}
    {l' : List β} (h : List.Forall₂ R l l') (hR : ∀ a b, R a b → g b = f a) :
    l'.map g = l.map f := by
  induction h with
  | nil => rfl
  | cons hhead _ ih => rw [List.map_cons, List.map_cons, ih, hR _ _ hhead]

theorem adjacencyRows_eq {edges edges' : List (Edge F)}
    (h : List.Forall₂ Edge.SameLink edges edges') (size : Nat) :
    adjacencyRows size edges' = adjacencyRows size edges := by
  refine Array.ext_getElem? fun v => ?_
  rw [getElem?_adjacencyRows, getElem?_adjacencyRows, List.flatMap_def, List.flatMap_def,
    map_eq_map_of_forall₂ h fun e e' hlink => hlink.across_eq v]

/-! ## Networks -/

namespace Network

variable [Scalar F] {net net' : Network F}

/-- Two networks that differ at most in the ends from which their edges are read. -/
structure SameLinks (net net' : Network F) : Prop where
  size_eq : net'.size = net.size
  edges : List.Forall₂ Edge.SameLink net.edges net'.edges

namespace SameLinks

variable (h : net.SameLinks net')

include h

theorem adjacency_eq : net'.adjacency = net.adjacency := by
  rw [net.adjacency_eq, net'.adjacency_eq, h.size_eq, adjacencyRows_eq h.edges]

theorem neighbors_eq : net'.neighbors = net.neighbors := by
  funext v
  rw [neighbors, neighbors, h.adjacency_eq]

theorem neighborsAt_eq : net'.neighborsAt = net.neighborsAt := by
  funext v
  rw [neighborsAt, neighborsAt, h.adjacency_eq]

theorem degreeAt_eq : net'.degreeAt = net.degreeAt := by
  funext v
  rw [degreeAt, degreeAt, h.neighborsAt_eq]

theorem strengthAt_eq : net'.strengthAt = net.strengthAt := by
  funext v
  rw [strengthAt, strengthAt, h.neighborsAt_eq]

theorem degree_eq : net'.degree = net.degree := by
  funext v
  rw [degree, degree, h.neighbors_eq]

theorem degrees_eq : net'.degrees = net.degrees := by
  rw [degrees, degrees, h.size_eq, h.degree_eq]

theorem degreeClasses_eq : net'.degreeClasses = net.degreeClasses := by
  rw [degreeClasses, degreeClasses, h.degrees_eq]

theorem edgeCount_eq : net'.edgeCount = net.edgeCount := h.edges.length_eq.symm

theorem totalDegree_eq : net'.totalDegree = net.totalDegree := by
  rw [totalDegree, totalDegree, h.edgeCount_eq]

theorem totalWeight_eq : net'.totalWeight = net.totalWeight := by
  rw [net.totalWeight_eq, net'.totalWeight_eq,
    map_eq_map_of_forall₂ h.edges fun e e' hlink => hlink.1]

end SameLinks

/-! ## Graphs -/

/-- The edges of a graph that are no loops, with their weights. -/
def links (g : Multigraph) (weights : Option (List F)) : List (Edge F) :=
  (weightedEdges g weights).filter fun e => !e.isLoop

/-- The links of a graph with the places at which they stand in its list of edges. -/
def placedLinks (g : Multigraph) (weights : Option (List F)) : List (Edge F × Nat) :=
  (weightedEdges g weights).zipIdx.filter fun e => !e.1.isLoop

/-- The places of the links of a graph in its list of edges. -/
def linkPlaces (g : Multigraph) (weights : Option (List F)) : List Nat :=
  (placedLinks g weights).map Prod.snd

/-- Two graphs with weights that have the same links. Both lists of weights fit, and all loops have
weights that can be used. -/
structure SameGraphLinks (g : Multigraph) (weights : Option (List F)) (g' : Multigraph)
    (weights' : Option (List F)) : Prop where
  vertices_eq : g'.vertices = g.vertices
  fits : FitsWeights g weights
  fits' : FitsWeights g' weights'
  same : List.Forall₂ Edge.SameLink (links g weights) (links g' weights')
  loops : ∀ e ∈ weightedEdges g weights, e.isLoop = true → e.isUsable = true
  loops' : ∀ e ∈ weightedEdges g' weights', e.isLoop = true → e.isUsable = true

/-- A link of both graphs with a weight `x` that cannot be used. It stands at `i` in the one list of
edges and at `i'` in the other. -/
def RefusedLink (g : Multigraph) (weights : Option (List F)) (g' : Multigraph)
    (weights' : Option (List F)) (i i' : Nat) (x : F) : Prop :=
  ∃ e e', (e, i) ∈ placedLinks g weights ∧ (e', i') ∈ placedLinks g' weights' ∧ e.SameLink e' ∧
    e.isUsable = false ∧ e.weight = x

/-- Both graphs make networks, and these have the same links, or both are refused for the weight of
one link, which stands at `i` in the one list of edges and at `place i` in the other. -/
def Corresponds (place : Nat → Nat) (g : Multigraph) (weights : Option (List F)) (g' : Multigraph)
    (weights' : Option (List F)) : Prop :=
  (∃ net net', ofGraph g weights = .ok net ∧ ofGraph g' weights' = .ok net' ∧
    net.SameLinks net') ∨
  ∃ i x, RefusedLink g weights g' weights' i (place i) x ∧
    ofGraph g weights = .error (.invalidWeight i x) ∧
    ofGraph g' weights' = .error (.invalidWeight (place i) x)

theorem map_fst_placedLinks (g : Multigraph) (weights : Option (List F)) :
    (placedLinks g weights).map Prod.fst = links g weights := by
  have hfst : (weightedEdges g weights).zipIdx.map Prod.fst = weightedEdges g weights :=
    List.zipIdx_map_fst 0 _
  rw [placedLinks, links, ← congrArg (List.filter fun e : Edge F => !e.isLoop) hfst,
    List.filter_map]
  rfl

theorem RefusedLink.exists_mem_links {g g' : Multigraph} {weights weights' : Option (List F)}
    {i i' : Nat} {x : F} (h : RefusedLink g weights g' weights' i i' x) :
    ∃ e ∈ links g weights, e.isUsable = false := by
  obtain ⟨e, e', he, -, -, hunusable, -⟩ := h
  rw [← map_fst_placedLinks]
  exact ⟨e, List.mem_map_of_mem he, hunusable⟩

theorem isUsable_of_mem_weightedEdges_none (hfinite : Scalar.isFinite (Scalar.one : F) = true)
    (hone : ¬(Scalar.one : F) < Scalar.zero) {g : Multigraph} {e : Edge F}
    (he : e ∈ weightedEdges g none) : e.isUsable = true := by
  obtain ⟨p, -, rfl⟩ := List.mem_map.1 he
  simp [Edge.isUsable, hfinite, hone]

theorem links_none {g : Multigraph} {weights : Option (List F)} (h : FitsWeights g weights) :
    links g none = (links g weights).map Edge.unweighted := by
  have hedges : weightedEdges g none = (weightedEdges g weights).map Edge.unweighted := by
    cases weights with
    | none => simp [weightedEdges, Edge.unweighted]
    | some ws =>
      have hfst := List.map_fst_zip (h ws rfl).ge
      simp only [weightedEdges, List.map_map]
      conv_lhs => rw [← hfst, List.map_map]
      rfl
  rw [links, links, hedges, List.filter_map]
  rfl

theorem nodup_linkPlaces (g : Multigraph) (weights : Option (List F)) :
    (linkPlaces g weights).Nodup := by
  have hsnd : (weightedEdges g weights).zipIdx.map Prod.snd = List.range' 0 _ :=
    List.zipIdx_map_snd 0 _
  refine (List.filter_sublist.map Prod.snd).nodup ?_
  rw [hsnd]
  exact List.nodup_range'

namespace SameGraphLinks

variable {g g' : Multigraph} {weights weights' : Option (List F)}

theorem exists_place (h : SameGraphLinks g weights g' weights') :
    ∃ place : Nat → Nat, List.Forall₂ (fun p p' => p.1.SameLink p'.1 ∧ p'.2 = place p.2)
      (placedLinks g weights) (placedLinks g' weights') := by
  have hlinks := h.same
  rw [← map_fst_placedLinks, ← map_fst_placedLinks, List.forall₂_map_left_iff,
    List.forall₂_map_right_iff, List.forall₂_iff_get] at hlinks
  obtain ⟨hlength, hlinks⟩ := hlinks
  refine ⟨fun i => ((linkPlaces g' weights')[(linkPlaces g weights).idxOf i]?).getD 0, ?_⟩
  refine List.forall₂_iff_get.2 ⟨hlength, fun j hj hj' => ⟨hlinks j hj hj', ?_⟩⟩
  have hplace : j < (linkPlaces g weights).length := by rwa [linkPlaces, List.length_map]
  have hindex := (nodup_linkPlaces g weights).idxOf_getElem j hplace
  simp only [linkPlaces, List.getElem_map, List.get_eq_getElem] at hindex ⊢
  rw [hindex, List.getElem?_map, List.getElem?_eq_getElem hj']
  rfl

theorem find?_weightedEdges
    (hloops : ∀ e ∈ weightedEdges g weights, e.isLoop = true → e.isUsable = true) :
    (weightedEdges g weights).zipIdx.find? (fun e => !e.1.isUsable) =
      (placedLinks g weights).find? fun e => !e.1.isUsable := by
  rw [placedLinks, List.find?_filter]
  refine List.find?_congr fun e he => ?_
  cases hloop : e.1.isLoop with
  | true => simp [hloops e.1 (List.fst_mem_of_mem_zipIdx he) hloop]
  | false => simp

theorem find?_placedLinks {place : Nat → Nat} {l l' : List (Edge F × Nat)}
    (h : List.Forall₂ (fun p p' => p.1.SameLink p'.1 ∧ p'.2 = place p.2) l l') :
    (l.find? (fun e => !e.1.isUsable) = none ∧ l'.find? (fun e => !e.1.isUsable) = none) ∨
      ∃ bad bad', l.find? (fun e => !e.1.isUsable) = some bad ∧
        l'.find? (fun e => !e.1.isUsable) = some bad' ∧
        bad.1.SameLink bad'.1 ∧ bad'.2 = place bad.2 := by
  induction h with
  | nil => exact Or.inl ⟨rfl, rfl⟩
  | @cons p p' l l' hhead _ ih =>
    rw [List.find?_cons, List.find?_cons, hhead.1.isUsable_eq]
    cases p.1.isUsable with
    | true => exact ih
    | false => exact Or.inr ⟨p, p', rfl, rfl, hhead.1, hhead.2⟩

theorem unweighted (h : SameGraphLinks g weights g' weights')
    (hfinite : Scalar.isFinite (Scalar.one : F) = true) (hone : ¬(Scalar.one : F) < Scalar.zero) :
    SameGraphLinks (F := F) g none g' none := by
  have husable : ∀ (g : Multigraph), ∀ e ∈ weightedEdges (F := F) g none, e.isUsable = true :=
    fun _ _ he => isUsable_of_mem_weightedEdges_none hfinite hone he
  refine ⟨h.vertices_eq, nofun, nofun, ?_, fun e he _ => husable g e he,
    fun e he _ => husable g' e he⟩
  rw [links_none h.fits, links_none h.fits', List.forall₂_map_left_iff, List.forall₂_map_right_iff]
  exact h.same.imp fun e e' hlink => ⟨rfl, hlink.2⟩

/-- The graphs make networks with the same links, or both are refused at the same link. -/
theorem exists_corresponds (h : SameGraphLinks g weights g' weights') :
    ∃ place : Nat → Nat, linkPlaces g' weights' = (linkPlaces g weights).map place ∧
      Corresponds place g weights g' weights' := by
  obtain ⟨place, hplace⟩ := h.exists_place
  refine ⟨place, ?_, ?_⟩
  · rw [linkPlaces, linkPlaces, List.map_map]
    exact map_eq_map_of_forall₂ hplace fun p p' hp => hp.2
  · rw [Corresponds, ofGraph_of_fits h.fits, ofGraph_of_fits h.fits']
    rcases find?_placedLinks hplace with
      ⟨hnone, hnone'⟩ | ⟨⟨e, i⟩, ⟨e', i'⟩, hbad, hbad', hlink, hi⟩
    · rw [← find?_weightedEdges h.loops] at hnone
      rw [← find?_weightedEdges h.loops'] at hnone'
      obtain ⟨net, hnet, hsize, hedges⟩ :=
        build_eq_ok (top_lt_of_mem_weightedEdges g weights) hnone
      obtain ⟨net', hnet', hsize', hedges'⟩ :=
        build_eq_ok (top_lt_of_mem_weightedEdges g' weights') hnone'
      refine Or.inl ⟨net, net', hnet, hnet', ?_, ?_⟩
      · rw [hsize, hsize', h.vertices_eq]
      · rw [hedges, hedges']
        exact h.same
    · dsimp only at hlink hi
      subst hi
      have hrefused : RefusedLink g weights g' weights' i (place i) e.weight :=
        ⟨e, e', List.mem_of_find?_eq_some hbad, List.mem_of_find?_eq_some hbad', hlink,
          by simpa using List.find?_some hbad, rfl⟩
      rw [← find?_weightedEdges h.loops] at hbad
      rw [← find?_weightedEdges h.loops'] at hbad'
      refine Or.inr ⟨i, e.weight, hrefused, ?_, ?_⟩
      · exact build_eq_error (top_lt_of_mem_weightedEdges g weights) hbad
      · rw [build_eq_error (top_lt_of_mem_weightedEdges g' weights') hbad', hlink.1]

end SameGraphLinks

theorem ofGraph_ones (g : Multigraph) :
    ofGraph g (some (List.replicate g.edgeCount (Scalar.one : F))) = ofGraph g none := by
  have hfits : FitsWeights g (some (List.replicate g.edgeCount (Scalar.one : F))) := by
    intro ws hws
    rw [← Option.some.inj hws, List.length_replicate]
  have hedges : weightedEdges g (some (List.replicate g.edgeCount (Scalar.one : F))) =
      weightedEdges g none := by
    rw [weightedEdges, weightedEdges, Multigraph.edgeCount]
    induction g.edges with
    | nil => rfl
    | cons e edges ih =>
      rw [List.length_cons, List.replicate_succ, List.zip_cons_cons, List.map_cons, List.map_cons,
        ih]
  rw [ofGraph_of_fits hfits, ofGraph]
  simp only [hedges]

end Network

end Potts
