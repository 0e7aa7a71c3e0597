import Potts.Proofs.Annealing.Consistent
import Potts.Proofs.Boltzmann.Table

/-!
# Proposals do not fault and leave no trace

In a consistent state, with a table that serves the class of a vertex, the vertex's spectrum files
every label at its energy for the vertex, and whatever the patched table lets be drawn is a level of
this spectrum. So the vertex gets a label, and what has been displaced and patched is put back: the
index files the labels as before, and the table is the same but for a switch to the least energy.
-/

namespace Potts.Annealing

open Checked Scalar

variable {F R : Type} [Scalar F] {setting : Setting F} {state : State F R} {v : Nat}
  {table : BoltzmannTable F} {p : Patch F}

/-! ## Patches -/

/-- What the patch for a vertex is. -/
structure Patched (setting : Setting F) (state : State F R) (v : Nat) (table : BoltzmannTable F)
    (p : Patch F) : Prop where
  class_eq : setting.network.degreeClasses[p.classNumber]? = some (setting.network.degree v)
  displaces : Displaces p.displacements (Set.Iio setting.labels)
    (globalEnergy setting.resolution state.nullModel (setting.network.degree v))
  energy_eq : displacedEnergy p.displacements
    (globalEnergy setting.resolution state.nullModel (setting.network.degree v)) =
      localEnergy setting state.nullModel state.labels v
  files : p.spectrum.Files (Set.Iio setting.labels)
    (localEnergy setting state.nullModel state.labels v)
  perturb_eq : table.perturb p.spectrum (touched p.displacements) = .ok (p.table, p.appended)

theorem Consistent.yields_patch (h : Consistent setting state) (hv : v < setting.network.size)
    (htable : table.Intact) :
    Yields (patch setting state v table) (Patched setting state v table) := by
  obtain ⟨c, hc, hclass⟩ := h.fits.class_eq v hv
  rw [patch, setting.network.degreeAt_eq_ok hv, ok_bind]
  refine (yields_fetch (P := (· = c)) hc rfl).bind fun c' hc' => ?_
  subst hc'
  refine (yields_localWeights h.size_labels hv).bind fun weights hweights => ?_
  have hdisplaces := displaces_displacements (m := state.nullModel) hweights h.label_lt
  have henergy := displacedEnergy_displacements (m := state.nullModel) hweights
  refine (h.index.yields_spectrum hclass).bind fun s hs => ?_
  refine (hdisplaces.yields_displace hs).bind fun s' hs' => ?_
  have hperturb := htable.perturb_eq s' (touched
    (displacements setting state.nullModel (setting.network.degree v) weights))
  rw [hperturb]
  refine yields_ok ⟨hclass, hdisplaces, henergy, ?_, hperturb⟩
  rw [← henergy]
  exact hs'

theorem Patched.table_eq (h : Patched setting state v table p) (htable : table.Intact) :
    p.table = table.patched ((touched p.displacements).foldl table.invalidatedBy [])
      (BoltzmannTable.appendedEntries table.weighing p.spectrum table.total
        (touched p.displacements)).toArray := by
  have hperturb := h.perturb_eq
  rw [htable.perturb_eq] at hperturb
  exact (Prod.mk.inj (Except.ok.inj hperturb)).1.symm

theorem Patched.exists_level (h : Patched setting state v table p)
    (htable : table.Serves (Set.Iio setting.labels)
      (globalEnergy setting.resolution state.nullModel (setting.network.degree v)))
    {entry : TableEntry F} (hmem : entry ∈ p.table.entries) (hvalid : entry.valid = true) :
    ∃ level, p.spectrum.level? entry.energy = some level := by
  rw [h.table_eq htable.intact] at hmem
  rcases BoltzmannTable.of_mem_patched hmem hvalid with ⟨i, built, hbuilt, hi, hsame⟩ | happended
  · -- an entry of the build that is left alone has an untouched energy
    have huntouched : ∀ kept ∈ touched p.displacements, order entry.energy kept ≠ .eq := by
      intro kept hkept hkey
      refine hi (BoltzmannTable.mem_foldl_invalidatedBy.2 (Or.inr ⟨kept, hkept, ?_⟩))
      refine (htable.intact.slots_iff kept i).2 ⟨built, hbuilt, ?_⟩
      rw [hsame]
      exact Spectrum.order_eq_symm hkey
    obtain ⟨label, hlabel, hkey⟩ := htable.exists_label built (Array.mem_of_getElem? hbuilt)
    rw [hsame] at hkey
    rw [← h.displaces.order_displacedEnergy huntouched label, h.energy_eq] at hkey
    exact h.files.exists_level_iff.2 ⟨label, hlabel, hkey⟩
  · rw [List.mem_toArray] at happended
    exact (BoltzmannTable.of_mem_appendedEntries happended).2.2

theorem Patched.valid_le (h : Patched setting state v table p) (htable : table.Intact) :
    p.table.valid ≤ p.table.entries.size := by
  rw [h.table_eq htable, BoltzmannTable.patched]
  dsimp only
  rw [Array.size_append, BoltzmannTable.size_marked]
  exact Nat.sub_le _ _

theorem Patched.yields_restore (h : Patched setting state v table p) (htable : table.Intact)
    {chosen : BoltzmannTable F} (hchosen : chosen = p.table ∨ chosen = p.table.enterSteepest) :
    Yields chosen.restore fun restored => restored = table ∨ restored = table.enterSteepest := by
  have hpositions := htable.positions_foldl table.positions_nil (touched p.displacements)
  rcases hchosen with rfl | rfl
  · rw [h.table_eq htable, htable.restore_patched hpositions]
    exact yields_ok (Or.inl rfl)
  · have hsteepest : p.table.enterSteepest = table.enterSteepest.patched
        ((touched p.displacements).foldl table.invalidatedBy [])
        (BoltzmannTable.appendedEntries table.weighing p.spectrum table.total
          (touched p.displacements)).toArray := by
      rw [h.table_eq htable]
      rfl
    rw [hsteepest, htable.enterSteepest.restore_patched ⟨hpositions.nodup, hpositions.lt⟩]
    exact yields_ok (Or.inr rfl)

/-! ## Choosing -/

theorem yields_chooseEnergy [RandomSource R] {least : F} (r : R)
    (hleast : ∃ level, p.spectrum.level? least = some level)
    (hvalid : p.table.valid ≤ p.table.entries.size)
    (hlevel : ∀ entry ∈ p.table.entries, entry.valid = true →
      ∃ level, p.spectrum.level? entry.energy = some level) :
    Yields (chooseEnergy p least r) fun chosen =>
      (∃ level, p.spectrum.level? chosen.1 = some level) ∧
        (chosen.2.1 = p.table ∨ chosen.2.1 = p.table.enterSteepest) := by
  rw [chooseEnergy]
  split
  · exact yields_ok ⟨hleast, Or.inr rfl⟩
  · refine (BoltzmannTable.yields_draw hvalid r).bind fun drawn hdrawn => ?_
    obtain ⟨drawn, r'⟩ := drawn
    cases drawn with
    | none => exact yields_pure ⟨hleast, Or.inr rfl⟩
    | some energy =>
      obtain ⟨entry, hmem, hentry, heq⟩ := hdrawn energy rfl
      refine yields_pure ⟨?_, Or.inl rfl⟩
      rw [← heq]
      exact hlevel entry hmem hentry

omit [Scalar F] in
theorem yields_chooseLabel [RandomSource R] {level : LabelSet}
    (hlevel : ∃ label, level.contains label = true) (r : R) :
    Yields (chooseLabel level r : Checked F (Nat × R)) fun chosen =>
      level.contains chosen.1 = true := by
  obtain ⟨label, hlabel⟩ := hlevel
  have hmem : label ∈ SortedSet.toList level := (SortedSet.mem_toList level).2 hlabel
  have hsize : 0 < level.size := by
    rw [SortedSet.size_eq_length]
    exact List.length_pos_of_mem hmem
  rw [chooseLabel]
  refine (yields_drawBelow r hsize).bind fun place hplace => ?_
  rw [SortedSet.size_eq_length] at hplace
  have hget : (SortedSet.toList level)[place.1]? = some (SortedSet.toList level)[place.1] :=
    List.getElem?_eq_getElem hplace
  refine (yields_expect (P := fun label => level.contains label = true) hget ?_).bind
    fun label hlabel => yields_pure hlabel
  exact (SortedSet.mem_toList level).1 (List.getElem_mem hplace)

/-! ## Proposing -/

/-- What a proposal leaves: a label, the state with its labels filed as before, and the table. -/
structure Proposed (setting : Setting F) (state : State F R) (table : BoltzmannTable F)
    (out : Proposal F × State F R × BoltzmannTable F) : Prop where
  label_lt : out.1.label < setting.labels
  state_eq : out.2.1 = { state with index := out.2.1.index, source := out.2.1.source }
  index : Indexes setting state.nullModel out.2.1.index
  table_eq : out.2.2 = table ∨ out.2.2 = table.enterSteepest

/-- A proposal does not fault. -/
theorem Consistent.yields_propose [RandomSource R] (h : Consistent setting state)
    (hv : v < setting.network.size)
    (htable : table.Serves (Set.Iio setting.labels)
      (globalEnergy setting.resolution state.nullModel (setting.network.degree v))) :
    Yields (propose setting state v table) (Proposed setting state table) := by
  rw [propose]
  refine (h.yields_patch hv htable.intact).bind fun p hp => ?_
  -- the label of the vertex itself shows that there is a level
  have hlt : v < state.labels.size := by rwa [h.size_labels]
  have hown := h.label_lt v state.labels[v] (Array.getElem?_eq_getElem hlt)
  obtain ⟨level, hlevel, -⟩ := hp.files.exists_level hown (Spectrum.order_self _)
  obtain ⟨least, hleast, hmem⟩ := Spectrum.exists_minimum hlevel
  refine (yields_expect (P := (· = least)) hleast rfl).bind fun least' hleast' => ?_
  subst hleast'
  refine (yields_chooseEnergy state.source ⟨_, Spectrum.level?_of_mem_toList hmem⟩
    (hp.valid_le htable.intact) fun entry hentry => hp.exists_level htable hentry).bind
      fun chosen hchosen => ?_
  obtain ⟨energy, table', source⟩ := chosen
  obtain ⟨⟨level', hlevel'⟩, htable'⟩ := hchosen
  dsimp only at hlevel' htable'
  refine (yields_expect (P := (· = level')) hlevel' rfl).bind fun level'' hlevel'' => ?_
  subst hlevel''
  refine (yields_chooseLabel (hp.files.occupied energy _ hlevel') source).bind
    fun label hlabel => ?_
  refine (hp.yields_restore htable.intact htable').bind fun restored hrestored => ?_
  have hfiles := hp.files
  rw [← hp.energy_eq] at hfiles
  refine (hp.displaces.yields_putBack hfiles).bind fun s hs => yields_pure ?_
  refine ⟨(hp.files.mem_of_level hlevel' hlabel).1, rfl, ?_, hrestored⟩
  refine EnergyIndex.Covers.setSpectrum h.index fun degree hdegree => ?_
  rw [hp.class_eq] at hdegree
  cases hdegree
  exact hs

end Potts.Annealing
