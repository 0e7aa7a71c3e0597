import Mathlib.Analysis.SpecialFunctions.Log.Basic
import Potts.Proofs.Annealing.ClassTable
import Potts.Proofs.Boltzmann.Gibbs
import Potts.Proofs.Scalar.Real
import Potts.Random.ChaCha

/-!
# Proposals draw from Gibbs weights

The patched table from which a vertex draws has one valid entry for every energy that a label has
for the vertex, and the entry weighs what the build would make it weigh. So it is the table that
would be built from the vertex's spectrum, up to the order of its entries and a factor, and the
labels have the shares of the Gibbs distribution. This is read in exact arithmetic, with a positive
exponential function that turns sums into products, and holds for every state that sweeps reach and
for every vertex, whatever vertices have chosen before it in the sweep.
-/

namespace Potts.Annealing

open Checked BoltzmannTable

variable {K R : Type} [ExactScalar K] {setting : Setting K} {state : State K R} {temperature : K}
  {v : Nat}

theorem Consistent.weighs_table (h : Consistent setting state)
    (hexp : ∀ x : K, 0 < Scalar.exp x) {tables : Array (BoltzmannTable K)}
    (htables : Tables setting state.index temperature tables) {c degree : Nat}
    (hc : setting.network.degreeClasses[c]? = some degree) :
    ∃ table, tables[c]? = some table ∧ table.Intact ∧
      table.weighing.degree = (degree : K) ∧ table.weighing.temperature = temperature ∧
      table.weighing.shift = setting.shift ∧ Weighs table.validWeights setting.labels
        (globalEnergy setting.resolution state.nullModel degree) table.weighing := by
  obtain ⟨table, htable, h'⟩ := h.exists_classTable hexp htables hc
  exact ⟨table, htable, h'.serves.intact, h'.degree_eq, h'.temperature_eq, h'.shift_eq, h'.weighs⟩

/-- In a sweep at any temperature, from any state that sweeps have reached and after any vertices
have chosen, the valid entries of the patched table of a vertex are the energies that labels have
for the vertex, each once, and each weighs what its labels weigh at it. So they are those of the
table that is built from the vertex's spectrum, up to order and a positive factor, and a label that
is chosen evenly at an energy that is chosen by weight has its Gibbs share. -/
theorem gibbs_of_patch (R : Type) [SeededSource R] (hexp : ∀ x : K, 0 < Scalar.exp x)
    (hadd : ∀ x y : K, Scalar.exp (x + y) = Scalar.exp x * Scalar.exp y) (d : Detector K)
    (net : Network K) (temperatures : List K) (temperature : K) {earlier : List Nat}
    (hearlier : ∀ u ∈ earlier, u < net.size) {v : Nat} (hv : v < net.size) :
    ∃ setting state choices c table p,
      sweptAt R d net temperatures = .ok (setting, state) ∧
      earlier.foldlM (chooseNext setting)
        ⟨(buildTables setting state.index temperature).toArray, state, []⟩ = .ok choices ∧
      setting.classOf[v]? = some c ∧ choices.tables[c]? = some table ∧
      patch setting choices.state v table = .ok p ∧
      let degree := net.degree v
      let energy := fun label =>
        d.resolution * choices.state.nullModel.expected degree label -
          weightInto net choices.state.labels v label
      let weights := p.table.validWeights
      (weights.map Prod.fst).Nodup ∧
      (∀ e, e ∈ weights.map Prod.fst ↔ ∃ label < setting.labels, energy label = e) ∧
      (∀ x ∈ weights, x.2 = (labelsAt setting.labels energy x.1 : K) *
        Scalar.exp ((-x.1 - (degree : K) - table.weighing.ceiling) / temperature +
          setting.shift)) ∧
      (∀ strength, ∃ factor > 0, weights.Perm
        ((build p.spectrum degree strength temperature setting.shift).validWeights.map
          fun x => (x.1, factor * x.2))) ∧
      ∀ label < setting.labels, ∃ weight, (energy label, weight) ∈ weights ∧
        weight / (weights.map Prod.snd).sum / (labelsAt setting.labels energy (energy label) : K) =
          Scalar.exp (-energy label / temperature) /
            ∑ other ∈ Finset.range setting.labels, Scalar.exp (-energy other / temperature) := by
  obtain ⟨⟨setting, state⟩, hreached, rfl, hresolution, -, -, h⟩ :=
    yields_sweptAt (R := R) d net temperatures
  dsimp only at h hearlier hv hresolution ⊢
  obtain ⟨choices, hchoices, hchoosing⟩ := h.yields_choices temperature hearlier
  obtain ⟨c, hc, hclass⟩ := h.fits.class_eq v hv
  obtain ⟨table, htable, hintact, hdegree, htemperature, hshift, hweighs⟩ :=
    h.weighs_table hexp hchoosing.tables hclass
  have h' := h.of_choosing hchoosing
  obtain ⟨p, hp, hpatched⟩ := h'.yields_patch hv hintact
  have hmodel : choices.state.nullModel = state.nullModel := by rw [hchoosing.state_eq]
  rw [← hmodel] at hweighs
  have henergy : localEnergy setting choices.state.nullModel choices.state.labels v = fun label =>
      d.resolution * choices.state.nullModel.expected (setting.network.degree v) label -
        weightInto setting.network choices.state.labels v label := by
    funext label
    rw [localEnergy_eq, hresolution]
  have hweights := hpatched.weighs_table hintact hexp hweighs
  have hfiles := hpatched.files
  rw [henergy] at hweights hfiles
  refine ⟨setting, state, choices, c, table, p, hreached, hchoices, hc, htable, hp, hweights.nodup,
    fun e => hweights.mem_energies, fun x hx => ?_, fun strength => ?_, fun label hlabel => ?_⟩
  · rw [((hweights.mem_iff x).1 hx).2, Weighing.weight, hdegree, htemperature, hshift, mul_comm]
  · have hrebuilt := weighs_build hexp hfiles (setting.network.degree v) strength temperature
      setting.shift
    have hfactor := weight_eq_mul (w := table.weighing) hexp hadd (htemperature.trans
      (congrArg Weighing.temperature (weighing_build p.spectrum (setting.network.degree v) strength
        temperature setting.shift)).symm)
    exact ⟨_, hfactor.1, hweights.perm hrebuilt hfactor.2⟩
  · obtain ⟨weight, hweight, hshare⟩ := hweights.share hexp hadd hlabel
    rw [htemperature] at hshare
    exact ⟨weight, hweight, hshare⟩

theorem gibbs_of_patch_path :
    ∃ (setting : Setting ℝ) (state : State ℝ ChaCha) (choices : Choices ℝ ChaCha) (c : Nat)
      (table : BoltzmannTable ℝ) (p : Patch ℝ),
      sweptAt ChaCha ⟨1, .correlated, 1, 1, 1, 0, 42, false⟩ Network.path [2] =
        .ok (setting, state) ∧
      [0].foldlM (chooseNext setting)
        ⟨(buildTables setting state.index 1).toArray, state, []⟩ = .ok choices ∧
      setting.classOf[1]? = some c ∧ choices.tables[c]? = some table ∧
      patch setting choices.state 1 table = .ok p ∧
      (p.table.validWeights.map Prod.fst).Nodup := by
  have hearlier : ∀ u ∈ [0], u < Network.path.size := by
    intro u hu
    rw [List.mem_singleton.1 hu]
    decide
  have hv : 1 < Network.path.size := by decide
  obtain ⟨setting, state, choices, c, table, p, hreached, hchoices, hc, htable, hp, hnodup, -⟩ :=
    gibbs_of_patch ChaCha (fun x : ℝ => Real.exp_pos x) Real.exp_add
      ⟨1, .correlated, 1, 1, 1, 0, 42, false⟩ Network.path [2] 1 hearlier hv
  exact ⟨setting, state, choices, c, table, p, hreached, hchoices, hc, htable, hp, hnodup⟩

end Potts.Annealing
