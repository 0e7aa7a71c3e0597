import Mathlib.Algebra.Order.Field.Basic
import Potts.Proofs.Annealing.ClassTable
import Potts.Proofs.Annealing.Run
import Potts.Proofs.Annealing.Strengths
import Potts.Proofs.Annealing.Vacancy
import Potts.Proofs.Boltzmann.Ceiling
import Potts.Proofs.NullModel.Sign

/-!
# Tables do not overflow

The ceiling of a class is made from its largest strength and from its least energy at the start of a
sweep. The edges of a vertex lower an energy by no more than the strength of the vertex, so the
energies of the class and those that its vertices make of them are covered, and no exponent is above
the shift. The touched energies are all different, so a label is at most once in what was built and
once in what a patch appends, and the total of a patched table stays below a fifth of the largest
number.
-/

namespace Potts.Annealing

open Checked BoltzmannTable

variable {K R : Type} [ExactScalar K] {d : Detector K} {setting : Setting K} {state : State K R}
  {temperature : K} {v c degree label : Nat} {m : NullModel K} {table : BoltzmannTable K}
  {p : Patch K}

/-! ## What the ceiling covers -/

section Covers

variable (hstrengths : ∀ strength, setting.strengths[c]? = some strength →
  IsClassStrength setting.network setting.classOf.toList c strength)

include hstrengths

theorem ClassTable.strength_le (h : ClassTable setting m temperature c degree table)
    (hv : setting.classOf[v]? = some c) (hlabel : label < setting.labels) :
    setting.network.strength v - globalEnergy setting.resolution m degree label ≤
      table.weighing.degree + table.weighing.ceiling := by
  obtain ⟨s, strength, hfiles, hstrength, hweighing⟩ := h.weighing_eq
  have hceiling := Weighing.le_ceilingOf hfiles degree strength hlabel
  have hle := (hstrengths strength hstrength).strength_le v (by rwa [Array.getElem?_toList])
  rw [hweighing]
  dsimp only
  linarith

theorem ClassTable.covers_globalEnergy (h : ClassTable setting m temperature c degree table)
    (hv : setting.classOf[v]? = some c) (hlabel : label < setting.labels) :
    table.weighing.Covers (globalEnergy setting.resolution m degree label) := by
  have hle := h.strength_le hstrengths hv hlabel
  have hnonneg := setting.network.strength_nonneg v
  unfold Weighing.Covers
  linarith

theorem ClassTable.covers_localEnergy
    (h : ClassTable setting m temperature c (setting.network.degree v) table)
    (hv : setting.classOf[v]? = some c) (labels : Array Nat) (hlabel : label < setting.labels) :
    table.weighing.Covers (localEnergy setting m labels v label) := by
  have hle := h.strength_le hstrengths hv hlabel
  have hinto := weightInto_le_strength setting.network labels v label
  rw [localEnergy_eq]
  unfold globalEnergy at hle
  unfold Weighing.Covers
  linarith

theorem ClassTable.ceiling_eq_zero (h : ClassTable setting m temperature c degree table)
    (hfits : setting.Fits) (hc : setting.network.degreeClasses[c]? = some degree)
    (hunit : ∀ e ∈ setting.network.edges, e.weight = 1)
    (henergy : ∀ label < setting.labels, 0 ≤ globalEnergy setting.resolution m degree label) :
    table.weighing.ceiling = 0 := by
  obtain ⟨s, strength, hfiles, hstrength, hweighing⟩ := h.weighing_eq
  rw [hweighing]
  refine Weighing.ceilingOf_eq_zero hfiles ?_ henergy
  rcases (hstrengths strength hstrength).attained with rfl | ⟨u, hu, rfl⟩
  · exact Nat.cast_nonneg degree
  · rw [Array.getElem?_toList] at hu
    rw [setting.network.strength_eq_degree hunit u, hfits.degree_eq hu hc]

end Covers

theorem globalEnergy_nonneg [SeededSource R] {net : Network K} {temperatures : List K}
    (h : sweptAt R d net temperatures = .ok (setting, state)) (hresolution : 0 ≤ d.resolution)
    (degree label : Nat) : 0 ≤ globalEnergy d.resolution state.nullModel degree label := by
  obtain ⟨Inv, hpersists, hnonneg⟩ := NullModel.exists_persists_nonneg d.nullModel net
  exact mul_nonneg hresolution (hnonneg _ _ (has_sweptAt hpersists h) degree label)

/-! ## Tables in range -/

/-- In a sweep at any positive temperature, from any state that sweeps have reached and after any
vertices have chosen: the degree and the ceiling of the class of a vertex make up for every energy
of the class and every energy of the vertex, so no weight that the build or the patch computes for a
level has an exponent above the shift. What is built weighs at most the exponential of the shift for
every label and what is patched at most twice as much, which is a fifth of the largest number if the
exponential undoes the logarithm in the shift. When all weights are one, the ceiling is zero. -/
theorem bounded_of_patch (R : Type) [SeededSource R] (hexp : ∀ x : K, 0 < Scalar.exp x)
    (hmono : ∀ x y : K, x ≤ y → Scalar.exp x ≤ Scalar.exp y) (d : Detector K) (net : Network K)
    (hshift : Scalar.exp (boltzmannShift (d.labelCount net.size) : K) =
      Scalar.greatest / (10 * (d.labelCount net.size : K)))
    (temperatures : List K) {temperature : K} (htemperature : 0 < temperature) {earlier : List Nat}
    (hearlier : ∀ u ∈ earlier, u < net.size) {v : Nat} (hv : v < net.size) :
    ∃ setting state choices c s table p,
      sweptAt R d net temperatures = .ok (setting, state) ∧
      earlier.foldlM (chooseNext setting)
        ⟨(buildTables setting state.index temperature).toArray, state, []⟩ = .ok choices ∧
      setting.classOf[v]? = some c ∧ state.index.spectra[c]? = some s ∧
      choices.tables[c]? = some table ∧ patch setting choices.state v table = .ok p ∧
      let n : K := d.labelCount net.size
      let degree : K := net.degree v
      let shift : K := boltzmannShift (d.labelCount net.size)
      let ceiling := table.weighing.ceiling
      let energy := fun label =>
        d.resolution * choices.state.nullModel.expected (net.degree v) label
      (∀ label < setting.labels, -energy label - degree - ceiling ≤ 0 ∧
        -(energy label - weightInto net choices.state.labels v label) - degree - ceiling ≤ 0) ∧
      (∀ level : K × LabelSet, level ∈ s.toList ∨ level ∈ p.spectrum.toList →
        let exponent := (-level.1 - degree - ceiling) / temperature + shift
        table.weighing.weight level.1 level.2.size =
            Scalar.exp exponent * (level.2.size : K) ∧ exponent ≤ shift) ∧
      table.total ≤ n * Scalar.exp shift ∧
      p.table.total ≤ 2 * n * Scalar.exp shift ∧
      2 * n * Scalar.exp shift = Scalar.greatest / 5 ∧
      (d.validate = .ok () → (∀ e ∈ net.edges, e.weight = 1) → ceiling = 0) := by
  obtain ⟨setting, state, choices, c, table, p, hreached, hchoices, hc, htable, hp, rfl,
    hresolution, hlabels, hmodel, h, hclass, hclassTable, hpatched⟩ :=
    exists_patch_of_sweptAt R hexp d net temperatures temperature hearlier hv
  obtain ⟨hshift_eq, hstrengths⟩ := measures_of_sweptAt hreached
  obtain ⟨s, hs, hfiles⟩ := h.index.spectrum c _ hclass
  rw [← hmodel] at hfiles
  have hintact := hclassTable.serves.intact
  have hpositive : 0 < table.weighing.temperature := by rwa [hclassTable.temperature_eq]
  have hglobal : ∀ label < setting.labels, table.weighing.Covers (globalEnergy setting.resolution
      choices.state.nullModel (setting.network.degree v) label) :=
    fun label hlabel => hclassTable.covers_globalEnergy (hstrengths c) hc hlabel
  have hlocal : ∀ label < setting.labels, table.weighing.Covers (localEnergy setting
      choices.state.nullModel choices.state.labels v label) :=
    fun label hlabel => hclassTable.covers_localEnergy (hstrengths c) hc _ hlabel
  have hlevels : ∀ level : K × LabelSet, level ∈ s.toList ∨ level ∈ p.spectrum.toList →
      table.weighing.Covers level.1 := by
    rintro level (hlevel | hlevel)
    · exact Weighing.covers_of_mem_toList hfiles hglobal hlevel
    · exact Weighing.covers_of_mem_toList hpatched.files hlocal hlevel
  refine ⟨setting, state, choices, c, s, table, p, hreached, hchoices, hc, hs, htable, hp, ?_⟩
  rw [← hshift_eq, ← hlabels, ← hclassTable.shift_eq] at hshift
  have hpos : (0 : K) < setting.labels := by
    rw [hlabels]
    exact Nat.cast_pos.2 (labelCount_pos d (Nat.ne_of_gt (Nat.zero_lt_of_lt hv)))
  dsimp only
  rw [← hshift_eq, ← hlabels, ← hresolution, ← hclassTable.shift_eq, ← hclassTable.degree_eq,
    ← hclassTable.temperature_eq]
  refine ⟨fun label hlabel => ⟨hglobal label hlabel, ?_⟩, fun level hlevel => ⟨rfl, ?_⟩, ?_, ?_, ?_,
    fun hvalid hunit => ?_⟩
  · have hcovers := hlocal label hlabel
    rwa [localEnergy_eq] at hcovers
  · exact (hlevels level hlevel).exponent_le hpositive
  · exact hintact.total_le_shift hmono hpositive hclassTable.weighs hglobal
  · exact hintact.total_perturb_le_shift hexp hmono hpositive hclassTable.weighs
      (hpatched.weighs_table hintact hexp hclassTable.weighs)
      (fun e level => size_level_pos hpatched.files) hpatched.perturb_eq hglobal hlocal
  · rw [hshift]
    field_simp
    ring
  · refine hclassTable.ceiling_eq_zero (hstrengths c) h.fits hclass hunit fun label _ => ?_
    have hpositive := Detector.isPositive_iff.1 (validate_eq_ok.1 hvalid).1
    rw [hmodel, hresolution]
    exact globalEnergy_nonneg hreached hpositive.le _ label

theorem exp_boltzmannShift {n : Nat} (hn : 0 < n) :
    (Scalar.exp (boltzmannShift n : ℝ) : ℝ) = Scalar.greatest / (10 * (n : ℝ)) := by
  have hgreatest : (0 : ℝ) < Scalar.greatest := by
    change (0 : ℝ) < (2 - 1 / 2 ^ 52) * 2 ^ 1023
    norm_num
  have hn' : (0 : ℝ) < n := Nat.cast_pos.2 hn
  have hten : (Scalar.ten : ℝ) = 10 := Nat.cast_ofNat
  rw [boltzmannShift, max_eq_left hn, hten, mul_comm]
  exact Real.exp_log (by positivity)

theorem bounded_of_patch_path :
    ∃ (setting : Setting ℝ) (state : State ℝ ChaCha) (choices : Choices ℝ ChaCha) (c : Nat)
      (table : BoltzmannTable ℝ) (p : Patch ℝ),
      sweptAt ChaCha ⟨1, .correlated, 1, 1, 1, 0, 42, false⟩ Network.path [2] =
        .ok (setting, state) ∧
      [0].foldlM (chooseNext setting)
        ⟨(buildTables setting state.index 1).toArray, state, []⟩ = .ok choices ∧
      setting.classOf[1]? = some c ∧ choices.tables[c]? = some table ∧
      patch setting choices.state 1 table = .ok p ∧
      p.table.total ≤ Scalar.greatest / 5 ∧ table.weighing.ceiling = 0 := by
  have hearlier : ∀ u ∈ [0], u < Network.path.size := List.forall_mem_singleton.2 (by decide)
  obtain ⟨setting, state, choices, c, s, table, p, hreached, hchoices, hc, -, htable, hp, -, -, -,
    htotal, hfifth, hceiling⟩ :=
    bounded_of_patch ChaCha (fun x : ℝ => Real.exp_pos x) (fun x y => Real.exp_le_exp.2)
      ⟨1, .correlated, 1, 1, 1, 0, 42, false⟩ Network.path (exp_boltzmannShift (by decide)) [2]
      one_pos hearlier (by decide : 1 < Network.path.size)
  refine ⟨setting, state, choices, c, table, p, hreached, hchoices, hc, htable, hp,
    htotal.trans hfifth.le, hceiling (Detector.validate_of_pos one_pos one_pos) ?_⟩
  intro e he
  simp only [Network.path, List.mem_cons, List.not_mem_nil, or_false] at he
  rcases he with rfl | rfl <;> rfl

end Potts.Annealing
