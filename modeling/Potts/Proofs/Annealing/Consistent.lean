import Potts.Annealing.Sweep
import Potts.Proofs.Annealing.Displacement
import Potts.Proofs.Energy.Index
import Potts.Proofs.NullModel.Follows

/-!
# Consistent states

The population, the null model and the energy index of an annealing state are copies of what the
labels say. `Consistent` says that they agree: the population counts the labels, the null model
follows them, and in every degree class the index files each label at the energy that this null
model gives it. A run starts in a consistent state, and moving a vertex keeps the state consistent.
-/

namespace Potts.Annealing

open Checked

variable {F R : Type} [Scalar F] {setting : Setting F} {state : State F R} {net : Network F}
  {m m' : NullModel F} {index : EnergyIndex F} {source target v : Nat}

/-- The setting has the degree class of every vertex, and a strength for every class. -/
structure Setting.Fits (setting : Setting F) : Prop where
  class_eq : ∀ v < setting.network.size, ∃ c : Nat, setting.classOf[v]? = some c ∧
    setting.network.degreeClasses[c]? = some (setting.network.degree v)
  size_classOf : setting.classOf.size = setting.network.size
  size_strengths : setting.strengths.size = setting.network.degreeClasses.length

theorem Setting.Fits.degree_eq (h : setting.Fits) {c degree : Nat}
    (hv : setting.classOf[v]? = some c) (hc : setting.network.degreeClasses[c]? = some degree) :
    setting.network.degree v = degree := by
  obtain ⟨hlt, -⟩ := Array.getElem?_eq_some_iff.1 hv
  rw [h.size_classOf] at hlt
  obtain ⟨c', hc', hclass⟩ := h.class_eq v hlt
  rw [hv] at hc'
  cases hc'
  rw [hc] at hclass
  exact (Option.some.inj hclass).symm

/-- Every degree class of the index files all labels at the energies that a null model gives them.
-/
def Indexes (setting : Setting F) (m : NullModel F) (index : EnergyIndex F) : Prop :=
  index.Covers setting.network.degreeClasses fun degree s =>
    s.Files (Set.Iio setting.labels) (globalEnergy setting.resolution m degree)

/-- The records of a state agree with its labels. -/
structure Consistent (setting : Setting F) (state : State F R) : Prop where
  fits : setting.Fits
  size_labels : state.labels.size = setting.network.size
  label_lt : ∀ (v label : Nat), state.labels[v]? = some label → label < setting.labels
  population : state.population.Counts state.labels.toList
  nullModel : NullModel.Follows setting.network state.nullModel state.labels.toList
  index : Indexes setting state.nullModel state.index

/-! ## The start -/

omit [Scalar F] in
theorem yields_drawBelow [RandomSource R] (r : R) {n : Nat} (hn : 0 < n) :
    Yields (drawBelow r n : Checked F (Nat × R)) fun drawn => drawn.1 < n := by
  rw [drawBelow, if_neg (by omega)]
  exact yields_ok (RandomSource.below_lt r hn)

omit [Scalar F] in
theorem yields_drawLabels [RandomSource R] {n vertices : Nat} (hn : vertices ≠ 0 → 0 < n) (r : R) :
    Yields (drawLabels n vertices r : Checked F (List Nat × R)) fun drawn =>
      drawn.1.length = vertices ∧ ∀ label ∈ drawn.1, label < n := by
  induction vertices generalizing r with
  | zero => exact yields_ok ⟨rfl, fun label h => by cases h⟩
  | succ vertices ih =>
    rw [drawLabels]
    have hpos : 0 < n := hn (Nat.succ_ne_zero vertices)
    refine (yields_drawBelow r hpos).bind fun first hfirst => ?_
    refine (ih (fun _ => hpos) first.2).bind fun rest hrest => yields_pure ?_
    refine ⟨by rw [List.length_cons, hrest.1], fun label hlabel => ?_⟩
    rcases List.mem_cons.1 hlabel with rfl | hlabel
    · exact hfirst
    · exact hrest.2 label hlabel

theorem yields_vertexClasses {P : Nat → Spectrum F → Prop}
    (hindex : index.Covers net.degreeClasses P) :
    Yields (vertexClasses net index) fun classOf => classOf.length = net.size ∧
      ∀ v < net.size, ∃ c : Nat, classOf[v]? = some c ∧
        net.degreeClasses[c]? = some (net.degree v) := by
  have hclasses : vertexClasses net index =
      .ok (net.degrees.map fun degree => (index.class? degree).getD 0) := by
    refine mapM_eq_ok fun degree hdegree => ?_
    obtain ⟨v, hv, rfl⟩ := List.mem_map.1 hdegree
    obtain ⟨c, -, hclass⟩ := net.exists_class (List.mem_range.1 hv)
    rw [EnergyIndex.class?, hindex.classOf_eq, hclass]
    rfl
  refine ⟨_, hclasses, by simp [Network.degrees], fun v hv => ?_⟩
  obtain ⟨c, hc, hclass⟩ := net.exists_class hv
  refine ⟨c, ?_, hc⟩
  simp [Network.degrees, hv, EnergyIndex.class?, hindex.classOf_eq, hclass]

theorem classStrengths_concat (net : Network F) (classes : Nat) (classOf : List Nat) (a : Nat) :
    classStrengths net classes (classOf ++ [a]) = (do
      let strengths ← classStrengths net classes classOf
      let strength ← net.strengthAt classOf.length
      Checked.modify strengths a (Scalar.larger · strength)) := by
  rw [classStrengths, List.zipIdx_append, List.foldlM_append, ← classStrengths]
  refine bind_congr fun strengths => ?_
  rw [List.zipIdx_singleton, List.foldlM_cons, Nat.zero_add]
  exact bind_pure _

theorem yields_classStrengths {classes : Nat} {classOf : List Nat}
    (hsize : classOf.length ≤ net.size) (hclass : ∀ c ∈ classOf, c < classes) :
    Yields (classStrengths net classes classOf) fun strengths => strengths.size = classes := by
  induction classOf using List.reverseRecOn with
  | nil => exact yields_ok Array.size_replicate
  | append_singleton classOf a ih =>
    rw [List.length_append, List.length_singleton] at hsize
    rw [classStrengths_concat]
    have hinit := ih (by omega) fun c hc => hclass c (List.mem_append_left _ hc)
    refine hinit.bind fun strengths hstrengths => ?_
    rw [net.strengthAt_eq_ok (by omega), ok_bind,
      modify_eq_ok (by rw [hstrengths]; exact hclass a (by simp))]
    exact yields_ok (by rw [Array.size_modify, hstrengths])

omit [Scalar F] in
theorem labelCount_pos (d : Detector F) {size : Nat} (hsize : size ≠ 0) :
    0 < d.labelCount size := by
  unfold Detector.labelCount
  split <;> omega

theorem validate_eq_ok {d : Detector F} :
    d.validate = .ok () ↔ Detector.isPositive d.resolution = true ∧
      Detector.isPositive d.hottest = true ∧ Scalar.isFinite d.coldest = true := by
  rw [Detector.validate]
  cases Detector.isPositive d.resolution <;> cases Detector.isPositive d.hottest <;>
    cases Scalar.isFinite d.coldest <;> simp

/-- A run starts in a consistent state. -/
theorem yields_start [SeededSource R] (d : Detector F) (net : Network F) :
    Yields (start (R := R) d net) fun first =>
      first.1.network = net ∧ first.1.resolution = d.resolution ∧
        first.1.labels = d.labelCount net.size ∧ first.2.nullModel.kind = d.nullModel ∧
        Consistent first.1 first.2 := by
  rw [start]
  refine (yields_drawLabels (labelCount_pos d) _).bind fun drawn hdrawn => ?_
  obtain ⟨hlength, hlt⟩ := hdrawn
  refine (NullModel.yields_ofLabels d.nullModel hlength).bind fun m hm => ?_
  have hindex := EnergyIndex.covers_build net.degreeClasses (d.labelCount net.size)
    (globalEnergy d.resolution m)
  refine (yields_vertexClasses hindex).bind fun classOf hclassOf => ?_
  have hclasses : ∀ c ∈ classOf, c < (EnergyIndex.build net.degreeClasses (d.labelCount net.size)
      (globalEnergy d.resolution m)).classCount := by
    intro c hc
    obtain ⟨v, hv, rfl⟩ := List.mem_iff_getElem.1 hc
    obtain ⟨c, hc, hclass⟩ := hclassOf.2 v (hclassOf.1 ▸ hv)
    rw [List.getElem?_eq_getElem hv] at hc
    cases hc
    rw [EnergyIndex.classCount, hindex.size_spectra]
    exact (List.getElem?_eq_some_iff.1 hclass).1
  refine (yields_classStrengths hclassOf.1.le hclasses).bind fun strengths hstrengths =>
    yields_pure ?_
  refine ⟨rfl, rfl, rfl, hm.1, ⟨fun v hv => ?_, ?_, ?_⟩, ?_, ?_, ?_, hm.2, hindex⟩
  · obtain ⟨c, hc, hclass⟩ := hclassOf.2 v hv
    exact ⟨c, by rw [List.getElem?_toArray, hc], hclass⟩
  · rw [List.size_toArray, hclassOf.1]
  · rw [hstrengths, EnergyIndex.classCount, hindex.size_spectra]
  · rw [List.size_toArray, hlength]
  · intro v label hlabel
    rw [List.getElem?_toArray] at hlabel
    exact hlt label (List.mem_of_getElem? hlabel)
  · exact Population.counts_ofLabels drawn.1

/-! ## Moving a vertex -/

theorem Indexes.yields_withdraw (h : Indexes setting m index) (hsource : source < setting.labels)
    (htarget : target < setting.labels) (hne : source ≠ target) :
    Yields (withdraw setting.resolution m source target index)
      (EnergyIndex.Covers · setting.network.degreeClasses fun degree s =>
        s.Files ((Set.Iio setting.labels \ {source}) \ {target})
          (globalEnergy setting.resolution m degree)) := by
  refine EnergyIndex.Covers.yields_foldlM h fun degree _ s hs => ?_
  refine (hs.yields_remove hsource (Spectrum.order_self _)).bind fun s' hs' => ?_
  exact hs'.yields_remove ⟨htarget, Ne.symm hne⟩ (Spectrum.order_self _)

theorem yields_enroll
    (h : index.Covers setting.network.degreeClasses fun degree s =>
      s.Files ((Set.Iio setting.labels \ {source}) \ {target})
        (globalEnergy setting.resolution m degree))
    (hsource : source < setting.labels) (htarget : target < setting.labels) (hne : source ≠ target)
    (hothers : ∀ degree label, label ≠ source → label ≠ target →
      m'.expected degree label = m.expected degree label) :
    Yields (enroll setting.resolution m' source target index) (Indexes setting m') := by
  refine EnergyIndex.Covers.yields_foldlM h fun degree _ s hs => yields_ok ?_
  have hsource' : source ∉ (Set.Iio setting.labels \ {source}) \ {target} := by simp
  have htarget' : target ∉
      Insert.insert source ((Set.Iio setting.labels \ {source}) \ {target}) := by
    simp [hne.symm]
  have hinsert := (hs.insert hsource'
    (globalEnergy setting.resolution m' degree source)).insert htarget'
    (globalEnergy setting.resolution m' degree target)
  have hset : Insert.insert target (Insert.insert source
      ((Set.Iio setting.labels \ {source}) \ {target})) = Set.Iio setting.labels := by
    ext label
    simp only [Set.mem_insert_iff, Set.mem_sdiff, Set.mem_Iio, Set.mem_singleton_iff]
    constructor
    · rintro (rfl | rfl | ⟨⟨h, -⟩, -⟩)
      · exact htarget
      · exact hsource
      · exact h
    · intro h
      tauto
  rw [hset] at hinsert
  -- Only the two labels have new energies.
  refine hinsert.congr fun label _ => ?_
  by_cases hlabel : label = target
  · rw [hlabel, Function.update_self]
    exact Spectrum.order_self _
  · rw [Function.update_of_ne hlabel]
    by_cases hlabel' : label = source
    · rw [hlabel', Function.update_self]
      exact Spectrum.order_self _
    · rw [Function.update_of_ne hlabel', globalEnergy, globalEnergy,
        hothers degree label hlabel' hlabel]
      exact Spectrum.order_self _

/-- Moving a vertex does not fault and keeps the state consistent. -/
theorem Consistent.yields_moveVertex (h : Consistent setting state)
    (hv : v < setting.network.size) (htarget : target < setting.labels) :
    Yields (moveVertex setting state (v, target)) fun state' =>
      Consistent setting state' ∧ state'.labels = state.labels.setIfInBounds v target ∧
        state'.nullModel.kind = state.nullModel.kind := by
  have hlt : v < state.labels.size := by rwa [h.size_labels]
  have hlabel : state.labels[v]? = some state.labels[v] := Array.getElem?_eq_getElem hlt
  rw [moveVertex]
  refine (yields_fetch (P := fun held => state.labels[v]? = some held) hlabel hlabel).bind
    fun source hheld => ?_
  have hsource := h.label_lt v source hheld
  have hheld' : state.labels.toList[v]? = some source := by rwa [Array.getElem?_toList]
  split
  · rename_i heq
    subst heq
    refine yields_pure ⟨h, ?_, rfl⟩
    refine Array.ext_getElem? fun u => ?_
    rw [Array.getElem?_setIfInBounds]
    split
    · rename_i huv
      rw [← huv, hheld]
    · rfl
  · rename_i hne
    -- The labels leave the spectra before the model changes: they are filed at its old energies.
    refine (h.index.yields_withdraw hsource htarget hne).bind fun index hindex => ?_
    refine (h.population.yields_transfer hheld' target).bind fun population hpopulation => ?_
    rw [setting.network.degreeAt_eq_ok hv, ok_bind]
    refine (h.nullModel.yields_update hheld' target).bind fun m hm => ?_
    obtain ⟨hkind, hfollows, hothers⟩ := hm
    refine (yields_enroll hindex hsource htarget hne hothers).bind fun index' hindex' => ?_
    have htoList : (state.labels.setIfInBounds v target).toList =
        state.labels.toList.set v target := Array.toList_setIfInBounds
    refine yields_pure ⟨⟨h.fits, ?_, fun u label hu => ?_, ?_, ?_, hindex'⟩, rfl, hkind⟩
    · rw [Array.size_setIfInBounds, h.size_labels]
    · rw [Array.getElem?_setIfInBounds] at hu
      split at hu
      · cases hu
        exact htarget
      · exact h.label_lt u label hu
    · rw [htoList]
      exact hpopulation
    · rw [htoList]
      exact hfollows

end Potts.Annealing
