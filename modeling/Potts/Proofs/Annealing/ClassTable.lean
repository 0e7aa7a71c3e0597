import Mathlib.Algebra.Order.Field.Basic
import Potts.Proofs.Annealing.Sweep
import Potts.Proofs.Boltzmann.Draw

/-!
# The table of a degree class

While vertices choose in a sweep, a degree class has the table that was built for it at the start of
the sweep, perhaps switched to the least energy. `ClassTable` says what such a table is, and every
vertex of the class patches it without a fault.
-/

namespace Potts.Annealing

open Checked BoltzmannTable

variable {K R : Type} [ExactScalar K] {setting : Setting K} {state : State K R} {temperature : K}
  {v c degree : Nat}

/-- What is known of the table of the class `c`, which has the vertices of a degree. -/
structure ClassTable (setting : Setting K) (m : NullModel K) (temperature : K) (c degree : Nat)
    (table : BoltzmannTable K) : Prop where
  reached : table.Reached
  serves : table.Serves (Set.Iio setting.labels) (globalEnergy setting.resolution m degree)
  weighs : Weighs table.validWeights setting.labels (globalEnergy setting.resolution m degree)
    table.weighing
  /-- The weights depend on the largest strength of the class and on its least energy. -/
  weighing_eq : ∃ (s : Spectrum K) (strength : K),
    s.Files (Set.Iio setting.labels) (globalEnergy setting.resolution m degree) ∧
      setting.strengths[c]? = some strength ∧
      table.weighing = ⟨(degree : K),
        Weighing.ceilingOf degree strength (s.minimum?.map Prod.fst), temperature, setting.shift⟩

section ClassTable

variable {m : NullModel K} {table : BoltzmannTable K}

theorem ClassTable.enterSteepest (h : ClassTable setting m temperature c degree table) :
    ClassTable setting m temperature c degree table.enterSteepest :=
  ⟨h.reached.enterSteepest, h.serves.enterSteepest, h.weighs, h.weighing_eq⟩

theorem ClassTable.degree_eq (h : ClassTable setting m temperature c degree table) :
    table.weighing.degree = (degree : K) := by
  obtain ⟨s, strength, -, -, hweighing⟩ := h.weighing_eq
  rw [hweighing]

theorem ClassTable.temperature_eq (h : ClassTable setting m temperature c degree table) :
    table.weighing.temperature = temperature := by
  obtain ⟨s, strength, -, -, hweighing⟩ := h.weighing_eq
  rw [hweighing]

theorem ClassTable.shift_eq (h : ClassTable setting m temperature c degree table) :
    table.weighing.shift = setting.shift := by
  obtain ⟨s, strength, -, -, hweighing⟩ := h.weighing_eq
  rw [hweighing]

end ClassTable

theorem Consistent.exists_classTable (h : Consistent setting state)
    (hexp : ∀ x : K, 0 < Scalar.exp x) {tables : Array (BoltzmannTable K)}
    (htables : Tables setting state.index temperature tables)
    (hc : setting.network.degreeClasses[c]? = some degree) :
    ∃ table, tables[c]? = some table ∧
      ClassTable setting state.nullModel temperature c degree table := by
  obtain ⟨s, strength, built, hs, hstrength, rfl, htable⟩ := htables.2 c degree hc
  obtain ⟨s', hs', hfiles⟩ := h.index.spectrum c degree hc
  rw [hs] at hs'
  cases hs'
  have hbuilt : ClassTable setting state.nullModel temperature c degree
      (build s degree strength temperature setting.shift) :=
    ⟨.build s degree strength temperature setting.shift,
      serves_build hfiles degree strength temperature setting.shift,
      weighs_build hexp hfiles degree strength temperature setting.shift,
      s, strength, hfiles, hstrength, weighing_build s degree strength temperature setting.shift⟩
  rcases htable with htable | htable
  · exact ⟨_, htable, hbuilt⟩
  · exact ⟨_, htable, hbuilt.enterSteepest⟩

/-! ## The patch of a vertex -/

theorem Patched.localEnergy_eq_iff {table : BoltzmannTable K} {p : Patch K}
    (h : Patched setting state v table p) {e : K} (he : e ∉ touched p.displacements) (label : Nat) :
    localEnergy setting state.nullModel state.labels v label = e ↔
      globalEnergy setting.resolution state.nullModel (setting.network.degree v) label = e := by
  have huntouched : ∀ kept ∈ touched p.displacements, Scalar.order e kept ≠ .eq := by
    intro kept hkept hkey
    rw [Scalar.order_eq_eq.1 hkey] at he
    exact he hkept
  have hiff := h.displaces.order_displacedEnergy huntouched label
  rw [Scalar.order_eq_eq, Scalar.order_eq_eq, h.energy_eq] at hiff
  rw [eq_comm, hiff, eq_comm]

theorem Patched.localEnergy_mem_touched {table : BoltzmannTable K} {p : Patch K}
    (h : Patched setting state v table p) {label : Nat}
    (hlabel : globalEnergy setting.resolution state.nullModel (setting.network.degree v) label ∈
      touched p.displacements) :
    localEnergy setting state.nullModel state.labels v label ∈ touched p.displacements := by
  by_contra hnot
  rw [(h.localEnergy_eq_iff hnot label).1 rfl] at hlabel
  exact hnot hlabel

theorem Patched.weighs_table {table : BoltzmannTable K} {p : Patch K}
    (h : Patched setting state v table p) (hintact : table.Intact)
    (hexp : ∀ x : K, 0 < Scalar.exp x)
    (htable : Weighs table.validWeights setting.labels
      (globalEnergy setting.resolution state.nullModel (setting.network.degree v)) table.weighing) :
    Weighs p.table.validWeights setting.labels
      (localEnergy setting state.nullModel state.labels v) table.weighing := by
  refine hintact.weighs_perturb hexp htable h.files ?_ (fun e he => h.localEnergy_eq_iff he)
    h.perturb_eq
  exact (pairwise_dedupe _).imp fun hne heq => hne (Scalar.order_eq_eq.2 heq)

/-- In a sweep at any temperature, from any state that sweeps have reached and after any vertices
have chosen, a vertex patches the table of its class. -/
theorem exists_patch_of_sweptAt (R : Type) [SeededSource R] (hexp : ∀ x : K, 0 < Scalar.exp x)
    (d : Detector K) (net : Network K) (temperatures : List K) (temperature : K)
    {earlier : List Nat} (hearlier : ∀ u ∈ earlier, u < net.size) (hv : v < net.size) :
    ∃ setting state choices c table p,
      sweptAt R d net temperatures = .ok (setting, state) ∧
      earlier.foldlM (chooseNext setting)
        ⟨(buildTables setting state.index temperature).toArray, state, []⟩ = .ok choices ∧
      setting.classOf[v]? = some c ∧ choices.tables[c]? = some table ∧
      patch setting choices.state v table = .ok p ∧
      setting.network = net ∧ setting.resolution = d.resolution ∧
      setting.labels = d.labelCount net.size ∧ choices.state.nullModel = state.nullModel ∧
      Consistent setting state ∧
      setting.network.degreeClasses[c]? = some (setting.network.degree v) ∧
      ClassTable setting choices.state.nullModel temperature c (setting.network.degree v) table ∧
      Patched setting choices.state v table p := by
  obtain ⟨⟨setting, state⟩, hreached, rfl, hresolution, hlabels, -, h⟩ :=
    yields_sweptAt (R := R) d net temperatures
  dsimp only at h hearlier hv hresolution hlabels
  obtain ⟨choices, hchoices, hchoosing⟩ := h.yields_choices temperature hearlier
  obtain ⟨c, hc, hclass⟩ := h.fits.class_eq v hv
  obtain ⟨table, htable, hclassTable⟩ := h.exists_classTable hexp hchoosing.tables hclass
  obtain ⟨p, hp, hpatched⟩ :=
    (h.of_choosing hchoosing).yields_patch hv hclassTable.serves.intact
  have hmodel : choices.state.nullModel = state.nullModel := by rw [hchoosing.state_eq]
  rw [← hmodel] at hclassTable
  exact ⟨setting, state, choices, c, table, p, hreached, hchoices, hc, htable, hp, rfl, hresolution,
    hlabels, hmodel, h, hclass, hclassTable, hpatched⟩

end Potts.Annealing
