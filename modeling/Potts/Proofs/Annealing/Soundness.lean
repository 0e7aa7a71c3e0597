import Potts.Proofs.Annealing.Greedy

/-!
# Proposals tell the energies

A vertex computes energies for the labels of its neighbors only, moves these labels about in an
index that all vertices share, and may read the energy that it chooses off a table. Its proposal
still says what a look at all labels would say: `Proposal.Sound` compares it with `localEnergy`,
which is computed afresh for every label. The label has the energy that the proposal names, the
least energy is the least one of all labels, and a greedy proposal takes it.

Along a sweep, the tables remember which classes have been greedy. So once a vertex of a class has
proposed greedily, all later vertices of this class do.
-/

namespace Potts.Annealing

open Checked Scalar

variable {F R : Type} [Scalar F] {setting : Setting F} {state : State F R}
  {table : BoltzmannTable F} {p : Patch F} {temperature : F} {v : Nat}

/-! ## One proposal -/

/-- What a proposal says of the energies that the labels have for a vertex is right. -/
structure Proposal.Sound (setting : Setting F) (m : NullModel F) (labels : Array Nat) (v : Nat)
    (p : Proposal F) : Prop where
  label_lt : p.label < setting.labels
  energy_eq : order p.energy (localEnergy setting m labels v p.label) = .eq
  least_le : ∀ label < setting.labels,
    (order p.least (localEnergy setting m labels v label)).isLE = true
  exists_least : ∃ label < setting.labels,
    order p.least (localEnergy setting m labels v label) = .eq
  energy_of_steepest : p.steepest = true → p.energy = p.least

theorem energy_chooseEnergy [RandomSource R] {least : F} {r : R} {chosen : F × BoltzmannTable F × R}
    (h : chooseEnergy p least r = .ok chosen) (hsteepest : chosen.2.1.steepest = true) :
    chosen.1 = least := by
  unfold chooseEnergy at h
  split at h
  · cases h
    rfl
  · rename_i hgreedy
    obtain ⟨⟨drawn, r'⟩, -, h⟩ := bind_eq_ok.1 h
    cases drawn with
    | none =>
      cases h
      rfl
    | some energy =>
      -- an energy is drawn from tables only that have not switched
      cases h
      refine absurd ?_ hgreedy
      rw [Patch.isGreedy, hsteepest, Bool.true_or]

omit [Scalar F] in
theorem contains_chooseLabel [RandomSource R] {level : LabelSet} {r : R} {chosen : Nat × R}
    (h : (chooseLabel level r : Checked F (Nat × R)) = .ok chosen) :
    level.contains chosen.1 = true := by
  simp only [chooseLabel, bind_eq_ok] at h
  obtain ⟨place, -, label, hlabel, h⟩ := h
  cases h
  exact (SortedSet.mem_toList level).1 (List.mem_of_getElem? (expect_eq_ok hlabel))

/-- Proposals are sound. -/
theorem Consistent.sound_of_propose [RandomSource R] (h : Consistent setting state)
    (hv : v < setting.network.size) (htable : table.Intact)
    {out : Proposal F × State F R × BoltzmannTable F}
    (hout : propose setting state v table = .ok out) :
      out.1.Sound setting state.nullModel state.labels v := by
  obtain ⟨p, least, energy, chosen, source, level, label, hp, hleast, hchosen, hlevel, hlabel,
    hrestore, hproposal⟩ := exists_of_propose hout
  obtain ⟨q, hq, hpatched⟩ := h.yields_patch hv htable
  rw [hp] at hq
  cases hq
  -- the patched spectrum files every label at its energy for the vertex
  have hfiles := hpatched.files
  obtain ⟨hlt, henergy⟩ := hfiles.mem_of_level hlevel (contains_chooseLabel hlabel)
  rw [hproposal]
  refine ⟨hlt, henergy, fun other hother => ?_, ?_, fun hsteepest => ?_⟩
  · obtain ⟨level', hlevel', -⟩ := hfiles.exists_level hother (Spectrum.order_self _)
    exact Spectrum.isLE_minimum hleast hlevel'
  · apply hfiles.exists_level_iff.1
    exact ⟨least.2, Spectrum.level?_of_mem_toList (List.mem_of_mem_head? hleast)⟩
  · apply energy_chooseEnergy hchosen
    rw [← steepest_restore hrestore]
    exact hsteepest

/-! ## The proposals of a sweep -/

/-- The vertices of a list have made sound proposals in this order. The table of a class remembers
its greedy proposals, and no later proposal of a class is less greedy than an earlier one. -/
structure Telling (setting : Setting F) (state : State F R) (temperature : F) (done : List Nat)
    (choices : Choices F R) : Prop where
  choosing : Choosing setting state temperature choices
  vertices : choices.proposals.map Prod.fst = done.reverse
  sound : ∀ choice ∈ choices.proposals,
    choice.2.Sound setting state.nullModel state.labels choice.1
  remembered : ∀ choice ∈ choices.proposals, choice.2.steepest = true →
    ∀ (c : Nat) (table : BoltzmannTable F),
      setting.network.degreeClasses[c]? = some (setting.network.degree choice.1) →
        choices.tables[c]? = some table → table.steepest = true
  later : choices.proposals.Pairwise fun later earlier =>
    setting.network.degree earlier.1 = setting.network.degree later.1 →
      earlier.2.steepest = true → later.2.steepest = true

theorem Consistent.yields_telling [RandomSource R] (h : Consistent setting state) {done : List Nat}
    {choices : Choices F R} (hchoices : Telling setting state temperature done choices)
    (hv : v < setting.network.size) :
    Yields (chooseNext setting choices v) (Telling setting state temperature (done ++ [v])) := by
  obtain ⟨next, hnext, hchoosing⟩ := h.yields_chooseNext hchoices.choosing hv
  obtain ⟨c, table, ⟨proposal, state', table'⟩, -, hclass, htable, hserves, hpropose, rfl⟩ :=
    h.exists_of_chooseNext hchoices.choosing.tables hv hnext
  have hconsistent := h.of_choosing hchoices.choosing
  have hsound : proposal.Sound setting state.nullModel state.labels v := by
    have hnow := hconsistent.sound_of_propose hv hserves.intact hpropose
    rwa [hchoices.choosing.state_eq] at hnow
  have hkept : table.steepest = true → table'.steepest = true :=
    hconsistent.steepest_of_propose hv hserves.intact hpropose
  have hsame : proposal.steepest = table'.steepest := by
    obtain ⟨p, -, hproposal, -⟩ := exists_patch_of_propose hpropose
    exact hproposal
  obtain ⟨hlt, -⟩ := Array.getElem?_eq_some_iff.1 htable
  -- What was remembered of an earlier vertex still holds, as no table switches back.
  refine ⟨_, hnext, hchoosing, ?_, ?_, ?_, List.pairwise_cons.2 ⟨?_, hchoices.later⟩⟩
  · rw [List.map_cons, hchoices.vertices, List.reverse_append]
    rfl
  · intro choice hchoice
    rcases List.mem_cons.1 hchoice with rfl | hchoice
    · exact hsound
    · exact hchoices.sound choice hchoice
  · intro choice hchoice hsteepest i t hi ht
    dsimp only at ht
    by_cases hci : c = i
    · subst hci
      rw [Array.getElem?_setIfInBounds_self_of_lt hlt] at ht
      cases ht
      rcases List.mem_cons.1 hchoice with rfl | hchoice
      · rwa [← hsame]
      · exact hkept (hchoices.remembered choice hchoice hsteepest c table hi htable)
    · rw [Array.getElem?_setIfInBounds_ne hci] at ht
      rcases List.mem_cons.1 hchoice with rfl | hchoice
      · exact absurd (NullModel.Correlated.class_unique hclass hi) hci
      · exact hchoices.remembered choice hchoice hsteepest i t hi ht
  · intro choice hchoice hdegree hsteepest
    rw [hsame]
    refine hkept (hchoices.remembered choice hchoice hsteepest c table ?_ htable)
    rw [hclass, hdegree]

theorem Consistent.yields_tellings [RandomSource R] (h : Consistent setting state)
    (temperature : F) {vertices : List Nat} (hvertices : ∀ v ∈ vertices, v < setting.network.size) :
    Yields (vertices.foldlM (chooseNext setting)
      ⟨(buildTables setting state.index temperature).toArray, state, []⟩)
      (Telling setting state temperature vertices) := by
  refine Yields.foldlM (Telling setting state temperature)
    ⟨⟨rfl, h.index, h.tables_build temperature, by simp⟩, rfl, by simp, by simp,
      List.Pairwise.nil⟩ ?_
  intro done v rest choices hdone hchoices
  refine h.yields_telling hchoices (hvertices v ?_)
  rw [hdone]
  simp

theorem Consistent.setSource (h : Consistent setting state) (source : R) :
    Consistent setting { state with source := source } :=
  ⟨h.fits, h.size_labels, h.label_lt, h.population, h.nullModel, h.index⟩

/-- In a sweep at any temperature, from any state that sweeps have reached and with any random
numbers: whatever vertices have proposed before, a vertex proposes a label, names the energy that
the label has for it and the least energy that any label has for it, and takes the least energy if
it is greedy, which it is if a vertex of its class was greedy before. And in the sweep as a whole
this holds of the proposals of all vertices. -/
theorem proposals_sound (R : Type) [SeededSource R] (d : Detector F) (net : Network F)
    (temperatures : List F) (temperature : F) :
    ∃ setting state, sweptAt R d net temperatures = .ok (setting, state) ∧
      setting.network = net ∧ setting.resolution = d.resolution ∧
      setting.labels = d.labelCount net.size ∧
      ∀ source : R,
        (∀ earlier : List Nat, (∀ u ∈ earlier, u < net.size) → ∀ v < net.size,
          ∃ choices c table proposal state' table',
            earlier.foldlM (chooseNext setting)
              ⟨(buildTables setting state.index temperature).toArray,
                { state with source := source }, []⟩ = .ok choices ∧
            setting.classOf[v]? = some c ∧ choices.tables[c]? = some table ∧
            propose setting choices.state v table = .ok (proposal, state', table') ∧
            proposal.Sound setting state.nullModel state.labels v ∧
            ∀ choice ∈ choices.proposals, net.degree choice.1 = net.degree v →
              choice.2.steepest = true → proposal.steepest = true) ∧
        ∃ outcome after,
          sweep setting { state with source := source } temperature = .ok (outcome, after) ∧
          outcome.proposals.map Prod.fst = List.range net.size ∧
          (∀ choice ∈ outcome.proposals,
            choice.2.Sound setting state.nullModel state.labels choice.1) ∧
          outcome.proposals.Pairwise fun earlier later =>
            net.degree earlier.1 = net.degree later.1 → earlier.2.steepest = true →
              later.2.steepest = true := by
  obtain ⟨⟨setting, state⟩, hreached, rfl, hresolution, hlabels, -, h⟩ :=
    yields_sweptAt (R := R) d net temperatures
  dsimp only at h hresolution hlabels
  refine ⟨setting, state, hreached, rfl, hresolution, hlabels, fun source => ⟨?_, ?_⟩⟩
  · intro earlier hearlier v hv
    obtain ⟨choices, hchoices, htelling⟩ :=
      (h.setSource source).yields_tellings temperature hearlier
    obtain ⟨next, hnext, htelling'⟩ := (h.setSource source).yields_telling htelling hv
    obtain ⟨c, table, ⟨proposal, state', table'⟩, hc, -, htable, -, hpropose, rfl⟩ :=
      (h.setSource source).exists_of_chooseNext htelling.choosing.tables hv hnext
    refine ⟨choices, c, table, proposal, state', table', hchoices, hc, htable, hpropose, ?_, ?_⟩
    · exact htelling'.sound _ List.mem_cons_self
    · exact (List.pairwise_cons.1 htelling'.later).1
  · obtain ⟨⟨outcome, after⟩, hsweep, -⟩ := (h.setSource source).yields_sweep temperature
    have hvertices : ∀ v ∈ List.range setting.network.size, v < setting.network.size :=
      fun v hv => List.mem_range.1 hv
    obtain ⟨choices, hchoices, htelling⟩ :=
      (h.setSource source).yields_tellings temperature hvertices
    have hproposals : outcome.proposals = choices.proposals.reverse := by
      have hsteps := hsweep
      simp only [sweep, bind_eq_ok] at hsteps
      obtain ⟨choices', hchoices', moves, -, moved, -, hout⟩ := hsteps
      rw [choose, hchoices] at hchoices'
      cases hchoices'
      cases hout
      rfl
    refine ⟨outcome, after, hsweep, ?_, ?_, ?_⟩
    · rw [hproposals, List.map_reverse, htelling.vertices, List.reverse_reverse]
    · intro choice hchoice
      rw [hproposals, List.mem_reverse] at hchoice
      exact htelling.sound choice hchoice
    · rw [hproposals, List.pairwise_reverse]
      exact htelling.later

end Potts.Annealing
