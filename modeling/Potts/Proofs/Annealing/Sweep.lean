import Potts.Proofs.Annealing.Proposal

/-!
# Sweeps keep states consistent

A sweep at any temperature does not fault and leads from a consistent state to a consistent one. So
every state that can be reached from the start of a run by sweeps, whatever their temperatures are,
is consistent. `sweptAt` makes the sweeps of a list of temperatures, and `records_of_sweptAt` says
in full what the records of the state that it reaches tell.
-/

namespace Potts.Annealing

open Checked Scalar

variable {F R : Type} [Scalar F] {setting : Setting F} {state : State F R} {temperature : F}

/-! ## Choosing -/

/-- The tables of a sweep while vertices choose: in every class the table that was built at the
start of the sweep, which may have switched to the least energy. -/
def Tables (setting : Setting F) (index : EnergyIndex F) (temperature : F)
    (tables : Array (BoltzmannTable F)) : Prop :=
  tables.size = setting.network.degreeClasses.length ∧
    ∀ c degree : Nat, setting.network.degreeClasses[c]? = some degree →
      ∃ s strength built, index.spectra[c]? = some s ∧ setting.strengths[c]? = some strength ∧
        built = .build s degree strength temperature setting.shift ∧
        (tables[c]? = some built ∨ tables[c]? = some built.enterSteepest)

theorem Tables.setIfInBounds {index : EnergyIndex F} {tables : Array (BoltzmannTable F)}
    (h : Tables setting index temperature tables) {c : Nat} {table table' : BoltzmannTable F}
    (htable : tables[c]? = some table) (heq : table' = table ∨ table' = table.enterSteepest) :
    Tables setting index temperature (tables.setIfInBounds c table') := by
  refine ⟨by rw [Array.size_setIfInBounds, h.1], fun i degree hi => ?_⟩
  obtain ⟨s, strength, built, hs, hstrength, hbuilt, hold⟩ := h.2 i degree hi
  refine ⟨s, strength, built, hs, hstrength, hbuilt, ?_⟩
  rw [Array.getElem?_setIfInBounds]
  by_cases hci : c = i
  · subst hci
    obtain ⟨hlt, -⟩ := Array.getElem?_eq_some_iff.1 htable
    rw [if_pos rfl, if_pos hlt]
    rw [htable] at hold
    -- switching twice is switching once
    rcases hold with hold | hold <;> rcases heq with rfl | rfl <;> cases hold
    · exact Or.inl rfl
    · exact Or.inr rfl
    · exact Or.inr rfl
    · exact Or.inr rfl
  · rw [if_neg hci]
    exact hold

/-- What holds of the choices of a sweep: no vertex has moved, the index files the labels as before,
the tables are those of the start, and every proposal is a vertex with a label. -/
structure Choosing (setting : Setting F) (state : State F R) (temperature : F)
    (choices : Choices F R) : Prop where
  state_eq : choices.state =
    { state with index := choices.state.index, source := choices.state.source }
  index : Indexes setting state.nullModel choices.state.index
  tables : Tables setting state.index temperature choices.tables
  proposals : ∀ choice ∈ choices.proposals,
    choice.1 < setting.network.size ∧ choice.2.label < setting.labels

theorem Consistent.of_choosing (h : Consistent setting state) {choices : Choices F R}
    (hchoices : Choosing setting state temperature choices) :
    Consistent setting choices.state := by
  rw [hchoices.state_eq]
  exact ⟨h.fits, h.size_labels, h.label_lt, h.population, h.nullModel, hchoices.index⟩

theorem Consistent.getElem?_buildTables (h : Consistent setting state) (temperature : F)
    {c degree : Nat} (hc : setting.network.degreeClasses[c]? = some degree) :
    ∃ s strength, state.index.spectra[c]? = some s ∧ setting.strengths[c]? = some strength ∧
      (buildTables setting state.index temperature)[c]? =
        some (.build s degree strength temperature setting.shift) := by
  obtain ⟨hlt, -⟩ := List.getElem?_eq_some_iff.1 hc
  obtain ⟨s, hs, -⟩ := h.index.spectrum c degree hc
  obtain ⟨strength, hstrength⟩ : ∃ strength, setting.strengths[c]? = some strength :=
    ⟨_, Array.getElem?_eq_getElem (by rwa [h.fits.size_strengths])⟩
  refine ⟨s, strength, hs, hstrength, ?_⟩
  have hzip : (state.index.spectra.toList.zip
      (state.index.degrees.toList.zip setting.strengths.toList))[c]? =
      some (s, degree, strength) := by
    rw [List.getElem?_zip_eq_some, List.getElem?_zip_eq_some]
    refine ⟨by rw [Array.getElem?_toList, hs], ?_, by rw [Array.getElem?_toList, hstrength]⟩
    rw [Array.getElem?_toList, h.index.degrees_eq, List.getElem?_toArray, hc]
  rw [buildTables, List.getElem?_map, hzip]
  rfl

theorem Consistent.tables_build (h : Consistent setting state) (temperature : F) :
    Tables setting state.index temperature
      (buildTables setting state.index temperature).toArray := by
  have hdegrees : state.index.degrees.size = setting.network.degreeClasses.length := by
    rw [h.index.degrees_eq, List.size_toArray]
  refine ⟨?_, fun c degree hc => ?_⟩
  · simp [buildTables, h.index.size_spectra, hdegrees, h.fits.size_strengths]
  · obtain ⟨s, strength, hs, hstrength, hbuilt⟩ := h.getElem?_buildTables temperature hc
    exact ⟨s, strength, _, hs, hstrength, rfl, Or.inl (by rw [List.getElem?_toArray, hbuilt])⟩

theorem Consistent.exists_table (h : Consistent setting state) {tables : Array (BoltzmannTable F)}
    (htables : Tables setting state.index temperature tables) {c degree : Nat}
    (hc : setting.network.degreeClasses[c]? = some degree) :
    ∃ s strength table, tables[c]? = some table ∧
      s.Files (Set.Iio setting.labels) (globalEnergy setting.resolution state.nullModel degree) ∧
      (table = .build s degree strength temperature setting.shift ∨
        table =
          (BoltzmannTable.build s degree strength temperature setting.shift).enterSteepest) := by
  obtain ⟨s, strength, built, hs, -, rfl, htable⟩ := htables.2 c degree hc
  obtain ⟨s', hs', hfiles⟩ := h.index.spectrum c degree hc
  rw [hs] at hs'
  cases hs'
  rcases htable with htable | htable
  · exact ⟨s, strength, _, htable, hfiles, Or.inl rfl⟩
  · exact ⟨s, strength, _, htable, hfiles, Or.inr rfl⟩

theorem Consistent.serves_table (h : Consistent setting state)
    {tables : Array (BoltzmannTable F)} (htables : Tables setting state.index temperature tables)
    {c degree : Nat} (hc : setting.network.degreeClasses[c]? = some degree) :
    ∃ table, tables[c]? = some table ∧ table.Serves (Set.Iio setting.labels)
      (globalEnergy setting.resolution state.nullModel degree) := by
  obtain ⟨s, strength, table, htable, hfiles, hbuilt⟩ := h.exists_table htables hc
  have hserves := BoltzmannTable.serves_build hfiles degree strength temperature setting.shift
  refine ⟨table, htable, ?_⟩
  rcases hbuilt with rfl | rfl
  · exact hserves
  · exact hserves.enterSteepest

theorem Consistent.yields_chooseNext [RandomSource R] (h : Consistent setting state)
    {choices : Choices F R} (hchoices : Choosing setting state temperature choices) {v : Nat}
    (hv : v < setting.network.size) :
    Yields (chooseNext setting choices v) (Choosing setting state temperature) := by
  obtain ⟨c, hc, hclass⟩ := h.fits.class_eq v hv
  obtain ⟨table, htable, hserves⟩ := h.serves_table hchoices.tables hclass
  have hmodel : choices.state.nullModel = state.nullModel := by rw [hchoices.state_eq]
  rw [chooseNext]
  refine (yields_fetch (P := (· = c)) hc rfl).bind fun c' hc' => ?_
  subst hc'
  refine (yields_fetch (P := (· = table)) htable rfl).bind fun table' htable' => ?_
  subst htable'
  rw [← hmodel] at hserves
  refine ((h.of_choosing hchoices).yields_propose hv hserves).bind fun out hout => yields_pure ?_
  refine ⟨?_, ?_, hchoices.tables.setIfInBounds htable hout.table_eq, fun choice hchoice => ?_⟩
  · rw [hout.state_eq, hchoices.state_eq]
  · rw [← hmodel]
    exact hout.index
  · rcases List.mem_cons.1 hchoice with rfl | hchoice
    · exact ⟨hv, hout.label_lt⟩
    · exact hchoices.proposals choice hchoice

theorem Consistent.exists_of_chooseNext [RandomSource R] (h : Consistent setting state)
    {choices next : Choices F R} (htables : Tables setting state.index temperature choices.tables)
    {v : Nat} (hv : v < setting.network.size) (hnext : chooseNext setting choices v = .ok next) :
    ∃ c table out, setting.classOf[v]? = some c ∧
      setting.network.degreeClasses[c]? = some (setting.network.degree v) ∧
      choices.tables[c]? = some table ∧
      table.Serves (Set.Iio setting.labels)
        (globalEnergy setting.resolution state.nullModel (setting.network.degree v)) ∧
      propose setting choices.state v table = .ok out ∧
      next =
        ⟨choices.tables.setIfInBounds c out.2.2, out.2.1, (v, out.1) :: choices.proposals⟩ := by
  obtain ⟨c, hc, hclass⟩ := h.fits.class_eq v hv
  obtain ⟨table, htable, hserves⟩ := h.serves_table htables hclass
  simp only [chooseNext, bind_eq_ok] at hnext
  obtain ⟨c', hc', table', htable', out, hout, hnext⟩ := hnext
  replace hc' := expect_eq_ok hc'
  rw [hc] at hc'
  cases hc'
  replace htable' := expect_eq_ok htable'
  rw [htable] at htable'
  cases htable'
  cases hnext
  exact ⟨c, table, out, hc, hclass, htable, hserves, hout, rfl⟩

theorem Consistent.yields_choices [RandomSource R] (h : Consistent setting state) (temperature : F)
    {vertices : List Nat} (hvertices : ∀ v ∈ vertices, v < setting.network.size) :
    Yields (vertices.foldlM (chooseNext setting)
      ⟨(buildTables setting state.index temperature).toArray, state, []⟩)
      (Choosing setting state temperature) := by
  refine Yields.foldlM_const ⟨rfl, h.index, h.tables_build temperature, ?_⟩
    fun v hv choices hchoices => h.yields_chooseNext hchoices (hvertices v hv)
  intro choice hchoice
  cases hchoice

/-! ## Moving -/

/-- The labels of the vertices after moves, each a vertex with its new label. -/
def labelsAfter (labels : Array Nat) (moves : List (Nat × Nat)) : Array Nat :=
  moves.foldl (fun labels move => labels.setIfInBounds move.1 move.2) labels

theorem Consistent.yields_makeMoves (h : Consistent setting state) {moves : List (Nat × Nat)}
    (hmoves : ∀ move ∈ moves, move.1 < setting.network.size ∧ move.2 < setting.labels) :
    Yields (makeMoves setting state moves) fun state' =>
      Consistent setting state' ∧ state'.labels = labelsAfter state.labels moves ∧
        state'.nullModel.kind = state.nullModel.kind := by
  refine Yields.foldlM (fun done (state' : State F R) => Consistent setting state' ∧
    state'.labels = labelsAfter state.labels done ∧
      state'.nullModel.kind = state.nullModel.kind) ⟨h, rfl, rfl⟩ ?_
  intro done move rest state' hmove hstate'
  obtain ⟨hconsistent, hlabels, hkind⟩ := hstate'
  obtain ⟨hv, htarget⟩ := hmoves move (by rw [hmove]; simp)
  refine (hconsistent.yields_moveVertex hv htarget).mono fun state'' hstate'' => ?_
  refine ⟨hstate''.1, ?_, hstate''.2.2.trans hkind⟩
  rw [hstate''.2.1, hlabels, labelsAfter, labelsAfter, List.foldl_append]
  rfl

/-- The moves of the vertices that chose another label than their own. -/
def stagedMoves (labels : Array Nat) (proposals : List (Nat × Proposal F)) : List (Nat × Nat) :=
  (proposals.reverse.filter fun choice => labels[choice.1]? ≠ some choice.2.label).map
    fun choice => (choice.1, choice.2.label)

omit [Scalar F] in
theorem mem_stagedMoves {labels : Array Nat} {proposals : List (Nat × Proposal F)}
    {move : Nat × Nat} (h : move ∈ stagedMoves labels proposals) :
    ∃ choice ∈ proposals, move = (choice.1, choice.2.label) := by
  obtain ⟨choice, hchoice, rfl⟩ := List.mem_map.1 h
  exact ⟨choice, List.mem_reverse.1 (List.mem_filter.1 hchoice).1, rfl⟩

omit [Scalar F] in
theorem staged_eq_ok {labels : Array Nat} {proposals : List (Nat × Proposal F)}
    (h : ∀ choice ∈ proposals, choice.1 < labels.size) :
    staged labels proposals = .ok (stagedMoves labels proposals) := by
  rw [staged, stagedMoves, ← List.filterMap_eq_map, List.filterMap_filter]
  refine filterMapM_eq_ok fun choice hchoice => ?_
  have hlt : choice.1 < labels.size := h choice (List.mem_reverse.1 hchoice)
  rw [fetch_eq_ok (Array.getElem?_eq_getElem hlt), ok_bind, Array.getElem?_eq_getElem hlt]
  refine congrArg Except.ok ?_
  by_cases hsame : labels[choice.1] = choice.2.label <;> simp [hsame]

theorem Consistent.staged_eq_ok [RandomSource R] (h : Consistent setting state)
    {choices : Choices F R} (hchoices : Choosing setting state temperature choices) :
    staged choices.state.labels choices.proposals =
      .ok (stagedMoves choices.state.labels choices.proposals) := by
  refine Annealing.staged_eq_ok fun choice hchoice => ?_
  rw [(h.of_choosing hchoices).size_labels]
  exact (hchoices.proposals choice hchoice).1

/-! ## Sweeping -/

/-- A sweep does not fault and keeps the state consistent. -/
theorem Consistent.yields_sweep [RandomSource R] (h : Consistent setting state) (temperature : F) :
    Yields (sweep setting state temperature) fun swept =>
      Consistent setting swept.2 ∧ swept.2.nullModel.kind = state.nullModel.kind := by
  rw [sweep]
  have hvertices : ∀ v ∈ List.range setting.network.size, v < setting.network.size := fun v hv =>
    List.mem_range.1 hv
  refine (h.yields_choices temperature hvertices).bind fun choices hchoices => ?_
  rw [h.staged_eq_ok hchoices, ok_bind]
  have hmoves : ∀ move ∈ stagedMoves choices.state.labels choices.proposals,
      move.1 < setting.network.size ∧ move.2 < setting.labels := by
    intro move hmove
    obtain ⟨choice, hchoice, rfl⟩ := mem_stagedMoves hmove
    exact hchoices.proposals choice hchoice
  refine ((h.of_choosing hchoices).yields_makeMoves hmoves).bind fun state' hstate' => ?_
  refine yields_pure ⟨hstate'.1, hstate'.2.2.trans ?_⟩
  rw [hchoices.state_eq]

/-- Sweeps at the temperatures of a list. -/
def sweeps [RandomSource R] (setting : Setting F) (state : State F R) (temperatures : List F) :
    Checked F (State F R) :=
  temperatures.foldlM (fun state temperature => Prod.snd <$> sweep setting state temperature) state

/-- The setting of a run, and the state that sweeps at the temperatures of a list lead to from its
start. -/
def sweptAt (R : Type) [SeededSource R] (d : Detector F) (net : Network F) (temperatures : List F) :
    Checked F (Setting F × State F R) := do
  let (setting, first) ← start (R := R) d net
  let last ← sweeps setting first temperatures
  return (setting, last)

theorem Consistent.yields_sweeps [RandomSource R] (h : Consistent setting state)
    (temperatures : List F) :
    Yields (sweeps setting state temperatures) fun state' =>
      Consistent setting state' ∧ state'.nullModel.kind = state.nullModel.kind := by
  refine Yields.foldlM_const ⟨h, rfl⟩ fun temperature _ state' hstate' => ?_
  refine (hstate'.1.yields_sweep temperature).map fun swept hswept => ?_
  exact ⟨hswept.1, hswept.2.trans hstate'.2⟩

theorem yields_sweptAt [SeededSource R] (d : Detector F) (net : Network F) (temperatures : List F) :
    Yields (sweptAt R d net temperatures) fun reached =>
      reached.1.network = net ∧ reached.1.resolution = d.resolution ∧
        reached.1.labels = d.labelCount net.size ∧ reached.2.nullModel.kind = d.nullModel ∧
        Consistent reached.1 reached.2 := by
  refine (yields_start d net).bind fun first hfirst => ?_
  obtain ⟨hnetwork, hresolution, hlabels, hkind, hconsistent⟩ := hfirst
  refine (hconsistent.yields_sweeps temperatures).bind fun last hlast => yields_pure ?_
  exact ⟨hnetwork, hresolution, hlabels, hlast.2.trans hkind, hlast.1⟩

/-- A run reaches a state by any sweeps. There the population counts the labels, and its totals are
the number of vertices; no vertex holds a label that is out of range; every vertex has the class of
its degree; and in every class each label is in one level only, whose energy is what the null model
of this state makes it, and no level is empty or holds anything else. -/
theorem records_of_sweptAt (R : Type) [SeededSource R] (d : Detector F) (net : Network F)
    (temperatures : List F) :
    ∃ setting state, sweptAt R d net temperatures = .ok (setting, state) ∧
      setting.network = net ∧ setting.labels = d.labelCount net.size ∧
      state.labels.size = net.size ∧
      (∀ label, state.population.count label = state.labels.toList.count label) ∧
      state.population.total = net.size ∧ state.population.recount = net.size ∧
      (∀ label count, SortedMap.get? state.population.counts label = some count → 0 < count) ∧
      (∀ v label : Nat, state.labels[v]? = some label → label < setting.labels) ∧
      (∀ v < net.size, ∃ c : Nat, setting.classOf[v]? = some c ∧
        state.index.class? (net.degree v) = some c ∧
        state.index.degrees[c]? = some (net.degree v)) ∧
      state.index.degrees = net.degreeClasses.toArray ∧
      state.index.spectra.size = net.degreeClasses.length ∧
      ∀ (c degree : Nat) (s : Spectrum F), state.index.degrees[c]? = some degree →
        state.index.spectra[c]? = some s →
          (∀ label < setting.labels, ∃ level ∈ s.toList,
            order level.1 (d.resolution * state.nullModel.expected degree label) = .eq ∧
              level.2.contains label = true ∧
              ∀ other ∈ s.toList, other.2.contains label = true → other = level) ∧
          ∀ level ∈ s.toList, (∃ label, level.2.contains label = true) ∧
            ∀ label, level.2.contains label = true → label < setting.labels := by
  obtain ⟨⟨setting, state⟩, heq, rfl, hresolution, hlabels, -, h⟩ :=
    yields_sweptAt (R := R) d net temperatures
  dsimp only at h hlabels hresolution
  have hlength : state.labels.toList.length = setting.network.size := by
    rw [Array.length_toList, h.size_labels]
  refine ⟨setting, state, heq, rfl, hlabels, h.size_labels, h.population.count_eq, ?_, ?_,
    h.population.positive, h.label_lt, fun v hv => ?_, h.index.degrees_eq, h.index.size_spectra,
    fun c degree s hc hs => ?_⟩
  · rw [h.population.total_eq, hlength]
  · rw [h.population.recount_eq, hlength]
  · obtain ⟨c, hc, hclass⟩ := h.fits.class_eq v hv
    refine ⟨c, hc, ?_, ?_⟩
    · rw [EnergyIndex.class?, h.index.classOf_eq]
      exact (get?_classNumbers setting.network.nodup_degreeClasses).2 hclass
    · rw [h.index.degrees_eq, List.getElem?_toArray, hclass]
  · rw [h.index.degrees_eq, List.getElem?_toArray] at hc
    obtain ⟨s', hs', hfiles⟩ := h.index.spectrum c degree hc
    rw [hs] at hs'
    cases hs'
    rw [hresolution] at hfiles
    refine ⟨fun label hlabel => ?_, fun level hlevel => ?_⟩
    · exact hfiles.existsUnique_level hlabel
    · exact hfiles.of_mem_toList hlevel

end Potts.Annealing
