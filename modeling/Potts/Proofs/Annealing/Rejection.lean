import Potts.Proofs.Annealing.ClassTable
import Potts.Proofs.Boltzmann.Acceptance
import Potts.Random.ChaCha

/-!
# Vertices seldom draw in vain

The patch of a vertex marks the built entries of some energies as invalid, but leaves their weight
in the total. A label of such an energy has not got a higher energy by this, since the edges to its
holders do not weigh less than nothing. So it weighs at least as much as before in an entry that the
patch appends, and never more than half of the total is invalid, whatever has happened before.
-/

namespace Potts.Annealing

open Checked BoltzmannTable

variable {K R : Type} [ExactScalar K] {setting : Setting K} {state : State K R} {temperature : K}
  {v c : Nat} {table : BoltzmannTable K} {p : Patch K}

/-- What a patch marks as invalid comes back: every label of a marked entry is at an energy that is
not higher, and this energy has an entry that the patch has appended. -/
theorem Patched.exists_appended (h : Patched setting state v table p) (hintact : table.Intact)
    (hexp : ∀ x : K, 0 < Scalar.exp x) {entry : TableEntry K} (hmem : entry ∈ p.table.entries)
    (hinvalid : entry.valid = false) {label : Nat} (hlabel : label < setting.labels)
    (henergy : globalEnergy setting.resolution state.nullModel (setting.network.degree v) label =
      entry.energy) :
    ∃ other ∈ p.table.entries.toList.drop table.entries.size, other.valid = true ∧
      other.energy = localEnergy setting state.nullModel state.labels v label := by
  obtain ⟨htouched, -⟩ := hintact.of_mem_invalid h.perturb_eq hmem hinvalid
  rw [← henergy] at htouched
  have hlocal := h.localEnergy_mem_touched htouched
  obtain ⟨level, hlevel⟩ := h.files.exists_level_iff.2 ⟨label, hlabel, Spectrum.order_self _⟩
  obtain ⟨other, hother, hkey⟩ := exists_mem_appendedEntries hexp
    (fun e level => size_level_pos h.files) table.weighing table.total hlocal hlevel
  refine ⟨other, ?_, (of_mem_appendedEntries hother).1, hkey⟩
  rw [hintact.toList_perturb h.perturb_eq, List.drop_left' (by simp)]
  exact hother

theorem Patched.total_le (h : Patched setting state v table p)
    (htable : ClassTable setting state.nullModel temperature c (setting.network.degree v) table)
    (hexp : ∀ x : K, 0 < Scalar.exp x) (hmono : ∀ x y : K, x ≤ y → Scalar.exp x ≤ Scalar.exp y)
    (htemperature : 0 < temperature) :
    p.table.total ≤ 2 * ∑ i ∈ p.table.validPositions, p.table.ownWeight i := by
  have hpositive : 0 < table.weighing.temperature := by rwa [htable.temperature_eq]
  have hpatched := h.weighs_table htable.serves.intact hexp htable.weighs
  rw [sum_ownWeight]
  exact htable.serves.intact.total_perturb_le_two_mul hexp hmono hpositive htable.weighs hpatched
    (fun label _ => localEnergy_le setting state.nullModel state.labels v label)
    (fun e level => size_level_pos h.files) h.perturb_eq

theorem Patched.endsValid (h : Patched setting state v table p)
    (htable : ClassTable setting state.nullModel temperature c (setting.network.degree v) table)
    (hexp : ∀ x : K, 0 < Scalar.exp x) (hlabels : 0 < setting.labels) : p.table.EndsValid := by
  have hsizes : ∀ e level, p.spectrum.level? e = some level → 0 < level.size :=
    fun e level => size_level_pos h.files
  have hintact := htable.serves.intact
  refine hintact.endsValid_perturb hexp hsizes h.perturb_eq ?_ fun built hbuilt htouched => ?_
  · -- the first label has an energy, and this has an entry
    obtain ⟨x, hx, -⟩ := List.mem_map.1 (htable.weighs.mem_energies.2 ⟨0, hlabels, rfl⟩)
    by_contra hsize
    rw [Nat.not_lt, Nat.le_zero, Array.size_eq_zero_iff] at hsize
    rw [validWeights, hsize] at hx
    cases hx
  · obtain ⟨label, hlabel, hkey⟩ := htable.serves.exists_label built hbuilt
    rw [Scalar.order_eq_eq.1 hkey] at htouched
    exact ⟨_, h.localEnergy_mem_touched htouched,
      h.files.exists_level_iff.2 ⟨label, hlabel, Spectrum.order_self _⟩⟩

/-- With real numbers, a trial of a draw from a patched table is accepted with a chance of at least
one half. So trials run out because of a long series of rejections only. -/
theorem Patched.half_le_chance {setting : Setting ℝ} {state : State ℝ R} {temperature : ℝ}
    {table : BoltzmannTable ℝ} {p : Patch ℝ} (h : Patched setting state v table p)
    (htable : ClassTable setting state.nullModel temperature c (setting.network.degree v) table)
    (htemperature : 0 < temperature) (hlabels : 0 < setting.labels) :
    1 / 2 ≤ chance p.table.Accepts := by
  have hexp : ∀ x : ℝ, 0 < (Scalar.exp x : ℝ) := Real.exp_pos
  have hmono : ∀ x y : ℝ, x ≤ y → (Scalar.exp x : ℝ) ≤ Scalar.exp y := fun x y =>
    Real.exp_le_exp.2
  have htotal := h.total_le htable hexp hmono htemperature
  obtain ⟨-, -, -, -, -, -, hascends⟩ :=
    (htable.reached.perturb h.perturb_eq).exists_patched hexp
  exact hascends.half_le_chance ((h.endsValid htable hexp hlabels).span_le htotal)

/-- In a sweep at any positive temperature, from any state that sweeps have reached and after any
vertices have chosen: the valid entries of the patched table of a vertex weigh at least half of its
total, and have at least half of the span. What is invalid comes back: a label whose energy in the
class is that of an invalid entry has an energy for the vertex that is not higher, and an entry that
the patch has appended is at it. -/
theorem half_valid_of_patch (R : Type) [SeededSource R] (hexp : ∀ x : K, 0 < Scalar.exp x)
    (hmono : ∀ x y : K, x ≤ y → Scalar.exp x ≤ Scalar.exp y) (d : Detector K) (net : Network K)
    (temperatures : List K) {temperature : K} (htemperature : 0 < temperature) {earlier : List Nat}
    (hearlier : ∀ u ∈ earlier, u < net.size) {v : Nat} (hv : v < net.size) :
    ∃ setting state choices c table p,
      sweptAt R d net temperatures = .ok (setting, state) ∧
      earlier.foldlM (chooseNext setting)
        ⟨(buildTables setting state.index temperature).toArray, state, []⟩ = .ok choices ∧
      setting.classOf[v]? = some c ∧ choices.tables[c]? = some table ∧
      patch setting choices.state v table = .ok p ∧
      p.table.total ≤ 2 * ∑ i ∈ p.table.validPositions, p.table.ownWeight i ∧
      p.table.span ≤ 2 * ∑ i ∈ p.table.validPositions, p.table.share i ∧
      ∀ entry ∈ p.table.entries, entry.valid = false → ∀ label < setting.labels,
        let energy := d.resolution * choices.state.nullModel.expected (net.degree v) label
        let energy' := energy - weightInto net choices.state.labels v label
        energy = entry.energy → energy' ≤ entry.energy ∧
          ∃ other ∈ p.table.entries.toList.drop table.entries.size,
            other.valid = true ∧ other.energy = energy' := by
  obtain ⟨setting, state, choices, c, table, p, hreached, hchoices, hc, htable, hp, rfl,
    hresolution, hlabels, -, -, -, hclassTable, hpatched⟩ :=
    exists_patch_of_sweptAt R hexp d net temperatures temperature hearlier hv
  have hpositive : 0 < setting.labels := by
    rw [hlabels]
    exact labelCount_pos d (Nat.ne_of_gt (Nat.zero_lt_of_lt hv))
  have htotal := hpatched.total_le hclassTable hexp hmono htemperature
  refine ⟨setting, state, choices, c, table, p, hreached, hchoices, hc, htable, hp, htotal,
    (hpatched.endsValid hclassTable hexp hpositive).span_le htotal, ?_⟩
  intro entry hentry hinvalid label hlabel energy energy' henergy
  have hlocal : localEnergy setting choices.state.nullModel choices.state.labels v label =
      energy' := by
    rw [localEnergy_eq, hresolution]
  rw [← hlocal, ← henergy]
  refine ⟨?_, ?_⟩
  · rw [hlocal]
    exact sub_le_self _ (weightInto_nonneg _ _ _ _)
  · refine hpatched.exists_appended hclassTable.serves.intact hexp hentry hinvalid hlabel ?_
    rw [← henergy, globalEnergy, hresolution]

theorem half_valid_of_patch_path :
    ∃ (setting : Setting ℝ) (state : State ℝ ChaCha) (choices : Choices ℝ ChaCha) (c : Nat)
      (table : BoltzmannTable ℝ) (p : Patch ℝ),
      sweptAt ChaCha ⟨1, .correlated, 1, 1, 1, 0, 42, false⟩ Network.path [2] =
        .ok (setting, state) ∧
      [0].foldlM (chooseNext setting)
        ⟨(buildTables setting state.index 1).toArray, state, []⟩ = .ok choices ∧
      setting.classOf[1]? = some c ∧ choices.tables[c]? = some table ∧
      patch setting choices.state 1 table = .ok p ∧
      p.table.total ≤ 2 * ∑ i ∈ p.table.validPositions, p.table.ownWeight i := by
  have hearlier : ∀ u ∈ [0], u < Network.path.size := List.forall_mem_singleton.2 (by decide)
  obtain ⟨setting, state, choices, c, table, p, hreached, hchoices, hc, htable, hp, htotal, -⟩ :=
    half_valid_of_patch ChaCha (fun x : ℝ => Real.exp_pos x) (fun x y => Real.exp_le_exp.2)
      ⟨1, .correlated, 1, 1, 1, 0, 42, false⟩ Network.path [2] one_pos hearlier
      (by decide : 1 < Network.path.size)
  exact ⟨setting, state, choices, c, table, p, hreached, hchoices, hc, htable, hp, htotal⟩

end Potts.Annealing
