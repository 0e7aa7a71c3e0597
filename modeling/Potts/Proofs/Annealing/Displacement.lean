import Mathlib.Algebra.Order.Field.Basic
import Potts.Annealing.Proposal
import Potts.Proofs.Energy.Spectrum
import Potts.Proofs.Graph.Strength

/-!
# Displaced energies

The energy of a label for a vertex can be computed afresh: what the null model adds to it, less the
weight of the vertex's edges into it. `localEnergy` does so. A proposal computes it for the labels
of the neighbors only and displaces these in the spectrum of the vertex's class. The displaced
spectrum files every label at its local energy, putting the labels back undoes this, and no energy
changes its labels but the touched ones.
-/

namespace Potts.Annealing

open Checked Scalar

variable {F : Type} [Scalar F] {setting : Setting F} {net : Network F} {m : NullModel F}
  {labels : Array Nat} {v label : Nat} {ds : List (Displacement F)} {energy : Nat → F}

/-! ## Local weights and energies -/

/-- The neighbors of a vertex that hold a label, with the weights of the edges to them. -/
def neighborsIn (net : Network F) (labels : Array Nat) (v label : Nat) : List (Nat × F) :=
  (net.neighbors v).filter fun neighbor => labels[neighbor.1]? == some label

/-- The weights of some edges, added in their order, if there are any. -/
def edgeWeight? (edges : List (Nat × F)) : Option F :=
  if edges.isEmpty then none else some (Scalar.sum (edges.map Prod.snd))

/-- The energy of a label for a vertex. -/
def localEnergy (setting : Setting F) (m : NullModel F) (labels : Array Nat) (v label : Nat) : F :=
  let base := globalEnergy setting.resolution m (setting.network.degree v) label
  match edgeWeight? (neighborsIn setting.network labels v label) with
  | some weight => base - weight
  | none => base

theorem edgeWeight?_concat (edges : List (Nat × F)) (edge : Nat × F) :
    edgeWeight? (edges ++ [edge]) = some ((edgeWeight? edges).getD zero + edge.2) := by
  have hlast : edgeWeight? (edges ++ [edge]) =
      some (Scalar.sum (edges.map Prod.snd) + edge.2) := by
    rw [edgeWeight?, if_neg (by simp), List.map_append, List.map_singleton, Scalar.sum,
      List.foldl_append]
    rfl
  rw [hlast]
  cases edges <;> simp [edgeWeight?, Scalar.sum]

theorem yields_localWeights (hsize : labels.size = net.size) {v : Nat} (hv : v < net.size) :
    Yields (localWeights net labels v) fun weights => ∀ label,
      weights.get? label = edgeWeight? (neighborsIn net labels v label) := by
  rw [localWeights, net.neighborsAt_eq_ok hv, ok_bind]
  refine Yields.foldlM (fun done (weights : SortedMap Nat F compare) => ∀ label,
    weights.get? label =
      edgeWeight? (done.filter fun neighbor => labels[neighbor.1]? == some label)) ?_ ?_
  · intro label
    rfl
  · intro done neighbor rest weights hneighbors hweights
    have hlt : neighbor.1 < labels.size := by
      rw [hsize]
      refine net.neighbor_lt (v := v) ?_
      rw [hneighbors]
      simp
    refine (yields_fetch (P := fun held => labels[neighbor.1]? = some held)
      (Array.getElem?_eq_getElem hlt) (Array.getElem?_eq_getElem hlt)).bind fun held hheld => ?_
    refine yields_pure fun label => ?_
    rw [SortedMap.get?_alter_label, List.filter_append, List.filter_cons, List.filter_nil, hheld,
      hweights, hweights]
    by_cases h : label = held
    · subst h
      rw [if_pos rfl, if_pos BEq.rfl, edgeWeight?_concat]
    · rw [if_neg h, if_neg (by simpa using Ne.symm h), List.append_nil]

/-! ## In exact arithmetic -/

section Exact

variable {K : Type} [ExactScalar K]

/-- The weight of the edges of a vertex into a label. -/
def weightInto (net : Network K) (labels : Array Nat) (v label : Nat) : K :=
  Scalar.sum ((neighborsIn net labels v label).map Prod.snd)

theorem getD_edgeWeight? (edges : List (Nat × K)) :
    (edgeWeight? edges).getD 0 = Scalar.sum (edges.map Prod.snd) := by
  cases edges with
  | nil => exact zero_eq.symm
  | cons edge edges => rfl

theorem localEnergy_eq (setting : Setting K) (m : NullModel K) (labels : Array Nat)
    (v label : Nat) :
    localEnergy setting m labels v label =
      setting.resolution * m.expected (setting.network.degree v) label -
        weightInto setting.network labels v label := by
  rw [localEnergy, weightInto, ← getD_edgeWeight?, globalEnergy]
  cases edgeWeight? (neighborsIn setting.network labels v label) with
  | none => exact (sub_zero _).symm
  | some weight => rfl

theorem weightInto_nonneg (net : Network K) (labels : Array Nat) (v label : Nat) :
    0 ≤ weightInto net labels v label := net.sum_filter_nonneg v _

theorem weightInto_le_strength (net : Network K) (labels : Array Nat) (v label : Nat) :
    weightInto net labels v label ≤ net.strength v := net.sum_filter_le_strength v _

theorem localEnergy_le (setting : Setting K) (m : NullModel K) (labels : Array Nat)
    (v label : Nat) :
    localEnergy setting m labels v label ≤
      globalEnergy setting.resolution m (setting.network.degree v) label := by
  rw [localEnergy_eq, globalEnergy]
  exact sub_le_self _ (weightInto_nonneg _ _ _ _)

end Exact

/-! ## Displacing and putting back -/

/-- The energies of labels after displacements. -/
def displacedEnergy (ds : List (Displacement F)) (energy : Nat → F) (label : Nat) : F :=
  ((ds.find? fun d => d.label == label).map Displacement.displaced).getD (energy label)

/-- Displacements of some labels, each displaced once from the energy at which it is filed. -/
structure Displaces (ds : List (Displacement F)) (held : Set Nat) (energy : Nat → F) : Prop where
  nodup : (ds.map Displacement.label).Nodup
  mem : ∀ d ∈ ds, d.label ∈ held
  base_eq : ∀ d ∈ ds, order d.base (energy d.label) = .eq

omit [Scalar F] in
theorem find?_eq_none_of_not_mem (h : label ∉ ds.map Displacement.label) :
    ds.find? (fun d => d.label == label) = none := by
  rw [List.find?_eq_none]
  intro d hd heq
  exact h (List.mem_map.2 ⟨d, hd, by simpa using heq⟩)

omit [Scalar F] in
theorem displacedEnergy_of_not_mem (h : label ∉ ds.map Displacement.label) (energy : Nat → F) :
    displacedEnergy ds energy label = energy label := by
  rw [displacedEnergy, find?_eq_none_of_not_mem h]
  rfl

omit [Scalar F] in
theorem displacedEnergy_concat {d : Displacement F} (h : d.label ∉ ds.map Displacement.label)
    (energy : Nat → F) :
    displacedEnergy (ds ++ [d]) energy =
      Function.update (displacedEnergy ds energy) d.label d.displaced := by
  funext label
  by_cases hlabel : label = d.label
  · subst hlabel
    rw [displacedEnergy, List.find?_append, find?_eq_none_of_not_mem h, Function.update_self]
    simp
  · rw [displacedEnergy, List.find?_append, Function.update_of_ne hlabel, displacedEnergy]
    simp [Ne.symm hlabel]

omit [Scalar F] in
theorem displacedEnergy_of_mem (hnodup : (ds.map Displacement.label).Nodup) {d : Displacement F}
    (hd : d ∈ ds) (energy : Nat → F) : displacedEnergy ds energy d.label = d.displaced := by
  induction ds using List.reverseRecOn with
  | nil => cases hd
  | append_singleton ds d' ih =>
    rw [List.map_append, List.nodup_append] at hnodup
    have hnew : d'.label ∉ ds.map Displacement.label := fun hmem =>
      hnodup.2.2 _ hmem _ (List.mem_singleton_self _) rfl
    rw [displacedEnergy_concat hnew]
    rcases List.mem_append.1 hd with hmem | hmem
    · have hne : d.label ≠ d'.label := fun heq =>
        hnew (heq ▸ List.mem_map_of_mem hmem)
      rw [Function.update_of_ne hne, ih hnodup.1 hmem]
    · rw [List.mem_singleton.1 hmem, Function.update_self]

omit [Scalar F] in
theorem not_mem_of_nodup {done rest : List (Displacement F)} {d : Displacement F}
    (hnodup : (ds.map Displacement.label).Nodup) (hds : ds = done ++ d :: rest) :
    d.label ∉ done.map Displacement.label := by
  intro hmem
  rw [hds, List.map_append, List.nodup_append] at hnodup
  exact hnodup.2.2 _ hmem _ (List.mem_cons_self) rfl

theorem Displaces.yields_displace {s : Spectrum F} {held : Set Nat} (hds : Displaces ds held energy)
    (hs : s.Files held energy) :
    Yields (displace s ds) (Spectrum.Files · held (displacedEnergy ds energy)) := by
  refine Yields.foldlM
    (fun done (s : Spectrum F) => s.Files held (displacedEnergy done energy)) hs ?_
  intro done d rest s hdone hs
  have hmem : d ∈ ds := by
    rw [hdone]
    simp
  have hnew := not_mem_of_nodup hds.nodup hdone
  rw [displacedEnergy_concat hnew]
  refine hs.yields_relocate (hds.mem d hmem) ?_ d.displaced
  rw [displacedEnergy_of_not_mem hnew]
  exact hds.base_eq d hmem

theorem Displaces.yields_putBack {s : Spectrum F} {held : Set Nat} (hds : Displaces ds held energy)
    (hs : s.Files held (displacedEnergy ds energy)) :
    Yields (putBack s ds) (Spectrum.Files · held energy) := by
  -- the labels that are done are back, the others are still displaced
  have hloop : Yields (putBack s ds) fun s => s.Files held fun label =>
      if label ∈ ds.map Displacement.label then energy label
      else displacedEnergy ds energy label := by
    refine Yields.foldlM (fun done (s : Spectrum F) => s.Files held fun label =>
      if label ∈ done.map Displacement.label then energy label
      else displacedEnergy ds energy label) (by simpa using hs) ?_
    intro done d rest s hdone hs
    have hmem : d ∈ ds := by
      rw [hdone]
      simp
    have hnew := not_mem_of_nodup hds.nodup hdone
    have hdisplaced : order d.displaced ((fun label => if label ∈ done.map Displacement.label
        then energy label else displacedEnergy ds energy label) d.label) = .eq := by
      dsimp only
      rw [if_neg hnew, displacedEnergy_of_mem hds.nodup hmem]
      exact Spectrum.order_self d.displaced
    refine (hs.yields_relocate (hds.mem d hmem) hdisplaced d.base).mono fun s' hs' => ?_
    refine hs'.congr fun label _ => ?_
    by_cases hlabel : label = d.label
    · subst hlabel
      rw [Function.update_self, if_pos (by simp)]
      exact hds.base_eq d hmem
    · have hiff : label ∈ (done ++ [d]).map Displacement.label ↔
          label ∈ done.map Displacement.label := by
        simp [hlabel]
      rw [Function.update_of_ne hlabel]
      simp only [hiff]
      exact Spectrum.order_self _
  refine hloop.mono fun s' hs' => hs'.congr fun label _ => ?_
  split
  · exact Spectrum.order_self _
  · rename_i hlabel
    rw [displacedEnergy_of_not_mem hlabel]
    exact Spectrum.order_self _

/-! ## The displacements of a vertex -/

theorem edgeWeight?_eq_some {edges : List (Nat × F)} {weight : F}
    (h : edgeWeight? edges = some weight) : ∃ edge, edge ∈ edges := by
  cases edges with
  | nil => cases h
  | cons edge edges => exact ⟨edge, List.mem_cons_self⟩

theorem displaces_displacements {weights : SortedMap Nat F compare}
    (hweights : ∀ label, weights.get? label =
      edgeWeight? (neighborsIn setting.network labels v label))
    (hlabels : ∀ (u label : Nat), labels[u]? = some label → label < setting.labels) :
    Displaces (displacements setting m (setting.network.degree v) weights)
      (Set.Iio setting.labels)
      (globalEnergy setting.resolution m (setting.network.degree v)) where
  nodup := by
    rw [displacements, List.map_map]
    have hkeys : weights.entries.Pairwise fun a b => a.1 ≠ b.1 :=
      weights.ascending.imp fun h => Nat.ne_of_lt (Nat.compare_eq_lt.1 h)
    exact List.pairwise_map.2 hkeys
  mem d hd := by
    obtain ⟨⟨label, weight⟩, hentry, rfl⟩ := List.mem_map.1 hd
    have hget := SortedMap.mem_entries_iff.1 hentry
    rw [hweights] at hget
    obtain ⟨edge, hedge⟩ := edgeWeight?_eq_some hget
    exact hlabels edge.1 label (by simpa using (List.mem_filter.1 hedge).2)
  base_eq d hd := by
    obtain ⟨entry, -, rfl⟩ := List.mem_map.1 hd
    exact Spectrum.order_self _

/-- After the displacements of a vertex every label has its energy for the vertex. -/
theorem displacedEnergy_displacements {weights : SortedMap Nat F compare}
    (hweights : ∀ label, weights.get? label =
      edgeWeight? (neighborsIn setting.network labels v label)) :
    displacedEnergy (displacements setting m (setting.network.degree v) weights)
      (globalEnergy setting.resolution m (setting.network.degree v)) =
      localEnergy setting m labels v := by
  funext label
  have hfind : ((displacements setting m (setting.network.degree v) weights).find? fun d =>
      d.label == label).map Displacement.displaced = (weights.get? label).map fun weight =>
        globalEnergy setting.resolution m (setting.network.degree v) label - weight := by
    have hkey : ∀ entry : Nat × F, (compare label entry.1 == .eq) = (entry.1 == label) := by
      intro entry
      rw [Bool.eq_iff_iff, beq_iff_eq, beq_iff_eq, Nat.compare_eq_eq, eq_comm]
    rw [displacements, List.find?_map, SortedMap.get?]
    simp only [hkey, Function.comp_def, Option.map_map]
    cases hentry : weights.entries.find? fun entry => entry.1 == label with
    | none => rfl
    | some entry =>
      have hlabel : entry.1 = label := by simpa using List.find?_some hentry
      simp [hlabel]
  rw [displacedEnergy, hfind, hweights, localEnergy]
  cases edgeWeight? (neighborsIn setting.network labels v label) <;> rfl

/-! ## Touched energies -/

theorem dedupe_concat (energies : List F) (a : F) :
    dedupe (energies ++ [a]) =
      if (dedupe energies).any (sameKey a) then dedupe energies else dedupe energies ++ [a] := by
  rw [dedupe, List.foldl_append, ← dedupe]
  rfl

theorem exists_mem_dedupe {energies : List F} {e : F} (h : e ∈ energies) :
    ∃ kept ∈ dedupe energies, order e kept = .eq := by
  induction energies using List.reverseRecOn with
  | nil => cases h
  | append_singleton energies a ih =>
    rw [dedupe_concat]
    have hstep : ∀ kept ∈ dedupe energies, kept ∈
        if (dedupe energies).any (sameKey a) then dedupe energies else dedupe energies ++ [a] := by
      intro kept hkept
      split
      · exact hkept
      · exact List.mem_append_left _ hkept
    rcases List.mem_append.1 h with h | h
    · obtain ⟨kept, hkept, hkey⟩ := ih h
      exact ⟨kept, hstep kept hkept, hkey⟩
    · rw [List.mem_singleton.1 h]
      by_cases hany : (dedupe energies).any (sameKey a) = true
      · rw [if_pos hany]
        obtain ⟨kept, hkept, hkey⟩ := List.any_eq_true.1 hany
        exact ⟨kept, hkept, by simpa [sameKey] using hkey⟩
      · rw [if_neg hany]
        exact ⟨a, by simp, Spectrum.order_self a⟩

theorem mem_of_mem_dedupe {energies : List F} {e : F} (h : e ∈ dedupe energies) : e ∈ energies := by
  induction energies using List.reverseRecOn with
  | nil => cases h
  | append_singleton energies a ih =>
    rw [dedupe_concat] at h
    split at h
    · exact List.mem_append_left _ (ih h)
    · rcases List.mem_append.1 h with h | h
      · exact List.mem_append_left _ (ih h)
      · exact List.mem_append_right _ h

theorem pairwise_dedupe (energies : List F) :
    (dedupe energies).Pairwise fun a b => order a b ≠ .eq := by
  induction energies using List.reverseRecOn with
  | nil => exact List.Pairwise.nil
  | append_singleton energies a ih =>
    rw [dedupe_concat]
    split
    · exact ih
    · rename_i hany
      rw [List.pairwise_append]
      refine ⟨ih, List.pairwise_singleton _ _, fun b hb c hc heq => hany ?_⟩
      rw [List.mem_singleton.1 hc] at heq
      rw [List.any_eq_true]
      exact ⟨b, hb, by simpa [sameKey] using Spectrum.order_eq_symm heq⟩

theorem exists_touched {d : Displacement F} (hd : d ∈ ds) {e : F}
    (he : e = d.base ∨ e = d.displaced) : ∃ kept ∈ touched ds, order e kept = .eq := by
  refine exists_mem_dedupe (List.mem_flatMap.2 ⟨d, hd, ?_⟩)
  simpa using he

theorem Displaces.order_displacedEnergy {held : Set Nat} (hds : Displaces ds held energy) {e : F}
    (he : ∀ kept ∈ touched ds, order e kept ≠ .eq) (label : Nat) :
    order e (displacedEnergy ds energy label) = .eq ↔ order e (energy label) = .eq := by
  by_cases hlabel : label ∈ ds.map Displacement.label
  · obtain ⟨d, hd, rfl⟩ := List.mem_map.1 hlabel
    rw [displacedEnergy_of_mem hds.nodup hd]
    obtain ⟨kept, hkept, hbase⟩ := exists_touched hd (Or.inl rfl)
    obtain ⟨kept', hkept', hdisplaced⟩ := exists_touched hd (Or.inr rfl)
    have hfiled := Spectrum.order_eq_symm (hds.base_eq d hd)
    constructor
    · intro h
      exact absurd (Spectrum.order_eq_trans h hdisplaced) (he kept' hkept')
    · intro h
      have hkey := Spectrum.order_eq_trans (Spectrum.order_eq_trans h hfiled) hbase
      exact absurd hkey (he kept hkept)
  · rw [displacedEnergy_of_not_mem hlabel]

end Potts.Annealing
