import Potts.Proofs.Annealing.Sweep

/-!
# Sweeps are synchronous

A proposal leaves the labels, the population and the null model as they are, the levels of every
spectrum as far as energies are told apart, and the table of its class but for a switch to the least
energy. So a vertex proposes what it would propose in the state at the start of the sweep, and the
moves are made when all vertices have chosen: after the sweep every vertex has the label that it
proposed.

A spectrum that is put back may spell an energy in another way than before, as one zero instead of
the other. `Proposal.Agrees` compares two proposals up to this.
-/

namespace Potts.Annealing

open Checked Scalar

variable {F R : Type} [Scalar F] {setting : Setting F} {state state' : State F R}
  {table : BoltzmannTable F} {p p' : Patch F} {temperature : F} {v target : Nat}
  {labels : Array Nat} {moves : List (Nat × Nat)}

theorem Indexes.agrees {m : NullModel F} {index index' : EnergyIndex F}
    (h : Indexes setting m index) (h' : Indexes setting m index') : index.Agrees index' :=
  EnergyIndex.Covers.agrees h h' fun _ _ _ hs hs' => hs.level?_eq hs'

/-! ## Two states with the same labels -/

/-- Two states have the same labels, null model and source, and their indices file the labels. -/
structure Alike (setting : Setting F) (state state' : State F R) : Prop where
  consistent : Consistent setting state
  consistent' : Consistent setting state'
  labels_eq : state.labels = state'.labels
  nullModel_eq : state.nullModel = state'.nullModel
  source_eq : state.source = state'.source

theorem displacements_of_patch (h : patch setting state v table = .ok p) :
    ∃ weights, localWeights setting.network state.labels v = .ok weights ∧
      p.displacements =
        displacements setting state.nullModel (setting.network.degree v) weights := by
  simp only [patch, bind_eq_ok] at h
  obtain ⟨degree, hdegree, c, -, weights, hweights, s, -, s', -, patched, -, h⟩ := h
  cases h
  exact ⟨weights, hweights, by rw [setting.network.eq_degree_of_degreeAt hdegree]⟩

/-- Two patches for a vertex that differ in how their spectra spell the energies only. -/
structure Patch.Agrees (p p' : Patch F) : Prop where
  displacements_eq : p.displacements = p'.displacements
  level?_eq : ∀ e, p.spectrum.level? e = p'.spectrum.level? e
  table_eq : p.table = p'.table
  appended_eq : p.appended = p'.appended

theorem Alike.patch_agrees (h : Alike setting state state')
    (hp : patch setting state v table = .ok p) (hp' : patch setting state' v table = .ok p')
    (hpatched : Patched setting state v table p)
    (hpatched' : Patched setting state' v table p') : p.Agrees p' := by
  obtain ⟨weights, hweights, hds⟩ := displacements_of_patch hp
  obtain ⟨weights', hweights', hds'⟩ := displacements_of_patch hp'
  rw [← h.labels_eq, hweights] at hweights'
  cases hweights'
  rw [← h.nullModel_eq, ← hds] at hds'
  have hlevel : ∀ e, p.spectrum.level? e = p'.spectrum.level? e := by
    have hfiles := hpatched'.files
    rw [← h.nullModel_eq, ← h.labels_eq] at hfiles
    exact hpatched.files.level?_eq hfiles
  have hperturb := hpatched'.perturb_eq
  rw [hds', ← BoltzmannTable.perturb_congr hlevel, hpatched.perturb_eq] at hperturb
  obtain ⟨htable, happended⟩ := Prod.mk.inj (Except.ok.inj hperturb)
  exact ⟨hds'.symm, hlevel, htable, happended⟩

/-! ## Proposals that agree -/

/-- Two proposals of the same label, at energies that are filed under the same keys. -/
structure Proposal.Agrees (a b : Proposal F) : Prop where
  label_eq : a.label = b.label
  energy_eq : order a.energy b.energy = .eq
  least_eq : order a.least b.least = .eq
  steepest_eq : a.steepest = b.steepest

theorem exists_of_propose [RandomSource R] {out : Proposal F × State F R × BoltzmannTable F}
    (h : propose setting state v table = .ok out) :
    ∃ p least energy chosen source level label,
      patch setting state v table = .ok p ∧ p.spectrum.minimum? = some least ∧
      chooseEnergy p least.1 state.source = .ok (energy, chosen, source) ∧
      p.spectrum.level? energy = some level ∧
      (chooseLabel level source : Checked F (Nat × R)) = .ok (label, out.2.1.source) ∧
      chosen.restore = .ok out.2.2 ∧
      out.1 = ⟨label, energy, least.1, out.2.2.steepest⟩ := by
  simp only [propose, bind_eq_ok] at h
  obtain ⟨p, hp, least, hleast, ⟨energy, chosen, source⟩, hchosen, level, hlevel,
    ⟨label, source'⟩, hlabel, restored, hrestored, s, -, h⟩ := h
  cases h
  exact ⟨p, least, energy, chosen, source, level, label, hp, expect_eq_ok hleast, hchosen,
    expect_eq_ok hlevel, hlabel, hrestored, rfl⟩

theorem Patch.Agrees.chooseEnergy [RandomSource R] (h : p.Agrees p') {least least' : F}
    (hleast : order least least' = .eq) {r : R} {out : F × BoltzmannTable F × R}
    (hout : Annealing.chooseEnergy p least r = .ok out) :
    ∃ energy, Annealing.chooseEnergy p' least' r = .ok (energy, out.2) ∧
      order out.1 energy = .eq := by
  have hgreedy : p'.isGreedy = p.isGreedy := by
    rw [isGreedy, isGreedy, h.table_eq, h.appended_eq, h.displacements_eq]
  rw [Annealing.chooseEnergy, hgreedy, ← h.table_eq]
  rw [Annealing.chooseEnergy] at hout
  split at hout
  · cases hout
    rw [if_pos ‹_›]
    exact ⟨least', rfl, hleast⟩
  · rw [if_neg ‹_›]
    obtain ⟨⟨drawn, r'⟩, hdrawn, hout⟩ := bind_eq_ok.1 hout
    rw [hdrawn]
    cases drawn with
    | none =>
      cases hout
      exact ⟨least', rfl, hleast⟩
    | some energy =>
      cases hout
      exact ⟨energy, rfl, Spectrum.order_self energy⟩

theorem Alike.propose_agrees [RandomSource R] (h : Alike setting state state')
    (hv : v < setting.network.size)
    (htable : table.Serves (Set.Iio setting.labels)
      (globalEnergy setting.resolution state.nullModel (setting.network.degree v)))
    {out out' : Proposal F × State F R × BoltzmannTable F}
    (hout : propose setting state v table = .ok out)
    (hout' : propose setting state' v table = .ok out') :
    out.1.Agrees out'.1 ∧ out.2.1.source = out'.2.1.source ∧ out.2.2 = out'.2.2 := by
  obtain ⟨p, least, energy, chosen, source, level, label, hp, hleast, hchosen, hlevel, hlabel,
    hrestore, hproposal⟩ := exists_of_propose hout
  obtain ⟨p', least', energy', chosen', source', level', label', hp', hleast', hchosen', hlevel',
    hlabel', hrestore', hproposal'⟩ := exists_of_propose hout'
  obtain ⟨q, hq, hpatched⟩ := h.consistent.yields_patch hv htable.intact
  obtain ⟨q', hq', hpatched'⟩ := h.consistent'.yields_patch hv htable.intact
  rw [hp] at hq
  rw [hp'] at hq'
  cases hq
  cases hq'
  have hagrees := h.patch_agrees hp hp' hpatched hpatched'
  have hminimum := Spectrum.order_minimum hagrees.level?_eq hleast hleast'
  -- the energies that are chosen have one key, so the labels are drawn from one level
  obtain ⟨energy'', hchosen'', henergy⟩ := hagrees.chooseEnergy hminimum hchosen
  rw [← h.source_eq, hchosen''] at hchosen'
  cases hchosen'
  rw [← hagrees.level?_eq, ← Spectrum.level?_congr henergy, hlevel] at hlevel'
  cases hlevel'
  rw [hlabel] at hlabel'
  obtain ⟨hlabel, hsource⟩ := Prod.mk.inj (Except.ok.inj hlabel')
  rw [hrestore] at hrestore'
  have hrestored := Except.ok.inj hrestore'
  refine ⟨?_, hsource, hrestored⟩
  rw [hproposal, hproposal', ← hrestored]
  exact ⟨hlabel, henergy, hminimum, rfl⟩

/-! ## Sweeping -/

/-- What a vertex proposes when it is asked in this very state, with the table that is built from
it, which may have switched to the least energy, and with some random numbers. -/
def ProposesAt [RandomSource R] (setting : Setting F) (state : State F R) (temperature : F)
    (v : Nat) (proposal : Proposal F) : Prop :=
  ∃ (c : Nat) (built table : BoltzmannTable F) (source : R)
    (out : Proposal F × State F R × BoltzmannTable F), setting.classOf[v]? = some c ∧
    (buildTables setting state.index temperature)[c]? = some built ∧
    (table = built ∨ table = built.enterSteepest) ∧
    propose setting { state with source := source } v table = .ok out ∧ out.1.Agrees proposal

/-- The vertices of a list have chosen, each as it would in the state at the start of the sweep. -/
structure Simultaneous [RandomSource R] (setting : Setting F) (state : State F R) (temperature : F)
    (done : List Nat) (choices : Choices F R) : Prop where
  choosing : Choosing setting state temperature choices
  vertices : choices.proposals.map Prod.fst = done.reverse
  proposesAt : ∀ choice ∈ choices.proposals,
    ProposesAt setting state temperature choice.1 choice.2

theorem Consistent.exists_built (h : Consistent setting state) {tables : Array (BoltzmannTable F)}
    (htables : Tables setting state.index temperature tables) {c degree : Nat}
    (hc : setting.network.degreeClasses[c]? = some degree) :
    ∃ built, (buildTables setting state.index temperature)[c]? = some built ∧
      (tables[c]? = some built ∨ tables[c]? = some built.enterSteepest) := by
  obtain ⟨s, strength, built, hs, hstrength, rfl, htable⟩ := htables.2 c degree hc
  obtain ⟨s', strength', hs', hstrength', hbuilt⟩ := h.getElem?_buildTables temperature hc
  rw [hs] at hs'
  rw [hstrength] at hstrength'
  cases hs'
  cases hstrength'
  exact ⟨_, hbuilt, htable⟩

/-- While vertices choose, the state differs from that at the start of the sweep in its source and
in how it spells the energies. -/
theorem Consistent.alike_of_choosing (h : Consistent setting state) {choices : Choices F R}
    (hchoices : Choosing setting state temperature choices) :
    Alike setting { state with source := choices.state.source } choices.state where
  consistent := ⟨h.fits, h.size_labels, h.label_lt, h.population, h.nullModel, h.index⟩
  consistent' := h.of_choosing hchoices
  labels_eq := by rw [hchoices.state_eq]
  nullModel_eq := by rw [hchoices.state_eq]
  source_eq := rfl

theorem Consistent.yields_simultaneous [RandomSource R] (h : Consistent setting state)
    {done : List Nat} {choices : Choices F R}
    (hchoices : Simultaneous setting state temperature done choices)
    (hv : v < setting.network.size) :
    Yields (chooseNext setting choices v)
      (Simultaneous setting state temperature (done ++ [v])) := by
  obtain ⟨next, hnext, hchoosing⟩ := h.yields_chooseNext hchoices.choosing hv
  obtain ⟨c, table, out, hc, hclass, htable, hserves, hout, rfl⟩ :=
    h.exists_of_chooseNext hchoices.choosing.tables hv hnext
  refine ⟨_, hnext, hchoosing, ?_, fun choice hchoice => ?_⟩
  · rw [List.map_cons, hchoices.vertices, List.reverse_append]
    rfl
  rcases List.mem_cons.1 hchoice with rfl | hchoice
  · have halike := h.alike_of_choosing hchoices.choosing
    obtain ⟨out', hout', -⟩ := halike.consistent.yields_propose hv hserves
    obtain ⟨built, hbuilt, hsame⟩ := h.exists_built hchoices.choosing.tables hclass
    rw [htable] at hsame
    refine ⟨c, built, table, choices.state.source, out', hc, hbuilt, ?_, hout', ?_⟩
    · simpa using hsame
    · exact (halike.propose_agrees hv hserves hout' hout).1
  · exact hchoices.proposesAt choice hchoice

/-! ## Making the moves -/

theorem getElem?_labelsAfter_of_not_mem (h : v ∉ moves.map Prod.fst) :
    (labelsAfter labels moves)[v]? = labels[v]? := by
  induction moves generalizing labels with
  | nil => rfl
  | cons move moves ih =>
    rw [List.map_cons, List.mem_cons, not_or] at h
    rw [labelsAfter, List.foldl_cons, ← labelsAfter, ih h.2,
      Array.getElem?_setIfInBounds_ne (Ne.symm h.1)]

theorem getElem?_labelsAfter_of_mem (hnodup : (moves.map Prod.fst).Nodup)
    (hmem : (v, target) ∈ moves) (hv : v < labels.size) :
    (labelsAfter labels moves)[v]? = some target := by
  induction moves generalizing labels with
  | nil => cases hmem
  | cons move moves ih =>
    rw [List.map_cons, List.nodup_cons] at hnodup
    rw [labelsAfter, List.foldl_cons, ← labelsAfter]
    rcases List.mem_cons.1 hmem with rfl | hmem
    · rw [getElem?_labelsAfter_of_not_mem hnodup.1, Array.getElem?_setIfInBounds_self_of_lt hv]
    · exact ih hnodup.2 hmem (by rwa [Array.size_setIfInBounds])

omit [Scalar F] in
theorem nodup_stagedMoves {proposals : List (Nat × Proposal F)}
    (hnodup : (proposals.map Prod.fst).Nodup) :
    ((stagedMoves labels proposals).map Prod.fst).Nodup := by
  rw [stagedMoves, List.map_map]
  have hreverse : (proposals.reverse.map Prod.fst).Nodup := by
    rw [List.map_reverse]
    exact List.nodup_reverse.2 hnodup
  exact hreverse.sublist (List.filter_sublist.map Prod.fst)

omit [Scalar F] in
theorem getElem?_labelsAfter_stagedMoves {proposals : List (Nat × Proposal F)}
    (hnodup : (proposals.map Prod.fst).Nodup) {proposal : Proposal F}
    (hmem : (v, proposal) ∈ proposals) (hv : v < labels.size) :
    (labelsAfter labels (stagedMoves labels proposals))[v]? = some proposal.label := by
  by_cases hstays : labels[v]? = some proposal.label
  · rw [getElem?_labelsAfter_of_not_mem, hstays]
    intro hmoves
    rw [stagedMoves, List.map_map, List.mem_map] at hmoves
    obtain ⟨⟨u, other⟩, hother, hu⟩ := hmoves
    have hu : u = v := hu
    subst hu
    rw [List.mem_filter, List.mem_reverse] at hother
    cases List.inj_on_of_nodup_map hnodup hother.1 hmem rfl
    exact absurd hstays (by simpa using hother.2)
  · refine getElem?_labelsAfter_of_mem (nodup_stagedMoves hnodup) ?_ hv
    rw [stagedMoves, List.mem_map]
    exact ⟨(v, proposal), by simp [hmem, hstays], rfl⟩

/-- In a sweep every vertex chooses once, as it would at the start of the sweep, and has the label
that it has chosen when the sweep is over. -/
theorem Consistent.yields_sweep_simultaneous [RandomSource R] (h : Consistent setting state)
    (temperature : F) :
    Yields (sweep setting state temperature) fun swept =>
      swept.1.proposals.map Prod.fst = List.range setting.network.size ∧
        ∀ v proposal, (v, proposal) ∈ swept.1.proposals →
          ProposesAt setting state temperature v proposal ∧
            swept.2.labels[v]? = some proposal.label := by
  have hchoose : Yields (choose setting state (buildTables setting state.index temperature))
      (Simultaneous setting state temperature (List.range setting.network.size)) := by
    refine Yields.foldlM (Simultaneous setting state temperature)
      ⟨⟨rfl, h.index, h.tables_build temperature, by simp⟩, rfl, by simp⟩ ?_
    intro done v rest choices hrange hchoices
    refine h.yields_simultaneous hchoices (List.mem_range.1 ?_)
    rw [hrange]
    simp
  rw [sweep]
  refine hchoose.bind fun choices hchoices => ?_
  have hvertices := hchoices.vertices
  have hnodup : (choices.proposals.map Prod.fst).Nodup := by
    rw [hvertices]
    exact List.nodup_reverse.2 List.nodup_range
  rw [h.staged_eq_ok hchoices.choosing, ok_bind]
  have hmoves : ∀ move ∈ stagedMoves choices.state.labels choices.proposals,
      move.1 < setting.network.size ∧ move.2 < setting.labels := by
    intro move hmove
    obtain ⟨choice, hchoice, rfl⟩ := mem_stagedMoves hmove
    exact hchoices.choosing.proposals choice hchoice
  have hconsistent := h.of_choosing hchoices.choosing
  refine (hconsistent.yields_makeMoves hmoves).bind fun after hafter => yields_pure ⟨?_, ?_⟩
  · rw [List.map_reverse, hvertices, List.reverse_reverse]
  · intro v proposal hmem
    rw [List.mem_reverse] at hmem
    have hlt : v < choices.state.labels.size := by
      rw [hconsistent.size_labels]
      exact (hchoices.choosing.proposals _ hmem).1
    refine ⟨hchoices.proposesAt _ hmem, ?_⟩
    rw [hafter.2.1]
    exact getElem?_labelsAfter_stagedMoves hnodup hmem hlt

/-- In a sweep at any temperature, from any state that sweeps have reached: whatever vertices have
chosen before, the proposal of a vertex leaves the labels, the population, the null model, the
levels of all degree classes and all of its table as they are, except that the table may switch to
the least energy. And in the sweep as a whole every vertex makes one proposal, the one that it would
make in the state at the start of the sweep, and holds the proposed label after the sweep. -/
theorem sweep_synchronous (R : Type) [SeededSource R] (d : Detector F) (net : Network F)
    (temperatures : List F) (temperature : F) :
    ∃ setting state, sweptAt R d net temperatures = .ok (setting, state) ∧
      (∀ earlier : List Nat, (∀ u ∈ earlier, u < net.size) → ∀ v < net.size,
        ∃ choices c table proposal state' table',
          earlier.foldlM (chooseNext setting)
            ⟨(buildTables setting state.index temperature).toArray, state, []⟩ = .ok choices ∧
          setting.classOf[v]? = some c ∧ choices.tables[c]? = some table ∧
          propose setting choices.state v table = .ok (proposal, state', table') ∧
          state'.labels = choices.state.labels ∧
          state'.population = choices.state.population ∧
          state'.nullModel = choices.state.nullModel ∧
          state'.index.Agrees choices.state.index ∧
          table' = { table with steepest := table'.steepest } ∧
          (table.steepest = true → table'.steepest = true)) ∧
      ∃ outcome after, sweep setting state temperature = .ok (outcome, after) ∧
        outcome.proposals.map Prod.fst = List.range net.size ∧
        ∀ v proposal, (v, proposal) ∈ outcome.proposals →
          ProposesAt setting state temperature v proposal ∧
            after.labels[v]? = some proposal.label := by
  obtain ⟨⟨setting, state⟩, hreached, rfl, -, -, -, h⟩ :=
    yields_sweptAt (R := R) d net temperatures
  dsimp only at h
  refine ⟨setting, state, hreached, fun earlier hearlier v hv => ?_, ?_⟩
  · obtain ⟨choices, hchoices, hchoosing⟩ := h.yields_choices temperature hearlier
    obtain ⟨c, hc, hclass⟩ := h.fits.class_eq v hv
    obtain ⟨table, htable, hserves⟩ := h.serves_table hchoosing.tables hclass
    have halike := h.alike_of_choosing hchoosing
    rw [show state.nullModel = choices.state.nullModel from halike.nullModel_eq] at hserves
    obtain ⟨⟨proposal, state', table'⟩, hpropose, hproposed⟩ :=
      halike.consistent'.yields_propose hv hserves
    have hstate : state' = { choices.state with index := state'.index, source := state'.source } :=
      hproposed.state_eq
    have hindex : Indexes setting choices.state.nullModel state'.index := hproposed.index
    refine ⟨choices, c, table, proposal, state', table', hchoices, hc, htable, hpropose,
      by rw [hstate], by rw [hstate], by rw [hstate], ?_, ?_, fun hsteepest => ?_⟩
    · exact hindex.agrees halike.consistent'.index
    · rcases hproposed.table_eq with rfl | rfl <;> rfl
    · rcases hproposed.table_eq with rfl | rfl
      · exact hsteepest
      · rfl
  · obtain ⟨⟨outcome, after⟩, hsweep, hproposals⟩ := h.yields_sweep_simultaneous temperature
    exact ⟨outcome, after, hsweep, hproposals⟩

end Potts.Annealing
