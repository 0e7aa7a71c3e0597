import Mathlib.Analysis.SpecialFunctions.Log.Basic
import Potts.Proofs.Annealing.Sweep
import Potts.Proofs.NullModel.Vacancy
import Potts.Random.ChaCha

/-!
# Annealing expects nothing in labels that no vertex holds

Whatever moves of vertices hand on about a null model and its labels holds of every state that
sweeps reach: a run changes the model and the labels by such moves only. With what
`Potts.NullModel.Trim` says, a label that no vertex holds has energy zero in every degree class, so
all of these labels are in one level.
-/

namespace Potts.Annealing

open Checked NullModel Scalar

variable {F R : Type} [Scalar F] {setting : Setting F} {state state' : State F R}
  {d : Detector F} {net : Network F} {kind : Kind} {Inv : NullModel F → List Nat → Prop}

/-! ## What moves hand on -/

/-- The null model of a state and its labels have a property that persists. -/
def State.Has (state : State F R) (Inv : NullModel F → List Nat → Prop) : Prop :=
  Inv state.nullModel state.labels.toList

theorem has_start [SeededSource R] (h : Persists d.nullModel net Inv)
    {first : Setting F × State F R} (hfirst : start (R := R) d net = .ok first) :
    first.2.Has Inv := by
  obtain ⟨first', hfirst', hnetwork, -, -, -, hconsistent⟩ := yields_start (R := R) d net
  rw [hfirst] at hfirst'
  cases hfirst'
  have hsize := hconsistent.size_labels
  simp only [start, bind_eq_ok] at hfirst
  obtain ⟨⟨labels, source⟩, -, m, hm, classOf, -, strengths, -, hfirst⟩ := hfirst
  cases hfirst
  have hlength : labels.length = net.size := by
    simpa using hsize
  obtain ⟨m', hm', hInv⟩ := h.ofLabels labels hlength
  rw [hm] at hm'
  cases hm'
  exact hInv

theorem has_moveVertex (h : Persists kind setting.network Inv) {move : Nat × Nat}
    (hstate : state.Has Inv) (hmove : moveVertex setting state move = .ok state') :
    state'.Has Inv := by
  simp only [moveVertex, bind_eq_ok] at hmove
  obtain ⟨source, hsource, hmove⟩ := hmove
  split at hmove
  · cases hmove
    exact hstate
  · simp only [bind_eq_ok] at hmove
    obtain ⟨index, -, population, -, degree, hdegree, m, hm, index', -, hmove⟩ := hmove
    rw [setting.network.eq_degree_of_degreeAt hdegree] at hm
    cases hmove
    have hheld : state.labels.toList[move.1]? = some source := by
      rw [Array.getElem?_toList]
      exact expect_eq_ok hsource
    obtain ⟨m', hm', hInv⟩ := h.update _ _ _ _ move.2 hstate hheld
    rw [hm] at hm'
    cases hm'
    change Inv m (state.labels.setIfInBounds move.1 move.2).toList
    rwa [Array.toList_setIfInBounds]

theorem Consistent.has_sweep [RandomSource R] (h : Consistent setting state)
    (hInv : Persists kind setting.network Inv) (hstate : state.Has Inv) {temperature : F}
    {swept : SweepOutcome F × State F R} (hswept : sweep setting state temperature = .ok swept) :
    swept.2.Has Inv := by
  simp only [sweep, bind_eq_ok] at hswept
  obtain ⟨choices, hchoices, moves, -, after, hafter, hswept⟩ := hswept
  cases hswept
  have hvertices : ∀ v ∈ List.range setting.network.size, v < setting.network.size :=
    fun v hv => List.mem_range.1 hv
  obtain ⟨choices', hchoices', hchoosing⟩ := h.yields_choices temperature hvertices
  rw [choose, hchoices'] at hchoices
  cases hchoices
  refine of_foldlM_eq_ok (Q := fun state => state.Has Inv) hafter ?_
    fun move _ state state' hstate hmove => has_moveVertex hInv hstate hmove
  change Inv choices.state.nullModel choices.state.labels.toList
  rw [hchoosing.state_eq]
  exact hstate

/-- What persists holds of every state that sweeps reach. -/
theorem has_sweptAt [SeededSource R] (h : Persists d.nullModel net Inv) {temperatures : List F}
    {reached : Setting F × State F R} (hreached : sweptAt R d net temperatures = .ok reached) :
    reached.2.Has Inv := by
  simp only [sweptAt, bind_eq_ok] at hreached
  obtain ⟨⟨setting, first⟩, hfirst, last, hlast, hreached⟩ := hreached
  cases hreached
  obtain ⟨first', hfirst', hnetwork, -, -, -, hconsistent⟩ := yields_start (R := R) d net
  rw [hfirst] at hfirst'
  cases hfirst'
  dsimp only at hnetwork
  have hInv : Persists d.nullModel setting.network Inv := by rwa [hnetwork]
  have hswept : Yields (sweeps setting first temperatures) fun state =>
      Consistent setting state ∧ state.Has Inv := by
    have hfirst' := has_start h hfirst
    refine Yields.foldlM_const ⟨hconsistent, hfirst'⟩ fun temperature _ state hstate => ?_
    obtain ⟨swept, hswept, hconsistent', -⟩ := hstate.1.yields_sweep temperature
    rw [hswept]
    exact yields_ok ⟨hconsistent', hstate.1.has_sweep hInv hstate.2 hswept⟩
  obtain ⟨last', hlast', -, hlast''⟩ := hswept
  rw [hlast] at hlast'
  cases hlast'
  exact hlast''

/-! ## Vacant labels -/

theorem isZero_globalEnergy (laws : ZeroLaws F) (hvalid : d.validate = .ok ()) {m : NullModel F}
    {degree label : Nat} (h : IsZero (m.expected degree label)) :
    IsZero (globalEnergy d.resolution m degree label) := by
  have hpositive := (validate_eq_ok.1 hvalid).1
  rw [Detector.isPositive, Bool.and_eq_true] at hpositive
  exact laws.mul _ _ hpositive.1 h

/-- A null model of any kind expects nothing in a label that no vertex holds: after any moves from
labels of all vertices, and in every state that sweeps of a validated detector reach. There all
labels that no vertex holds are in the level at energy zero of every degree class. The correlated
model answers with the constant zero, whatever the arithmetic makes of the entries of its table. -/
theorem expected_vacant (R : Type) [SeededSource R] (laws : ZeroLaws F) (kind : Kind)
    (net : Network F) (hscales : kind.Scales net) :
    (∀ (labels : List Nat) (moves : List (Nat × Nat)), labels.length = net.size →
      (∀ move ∈ moves, move.1 < net.size) →
      ∃ m, afterMoves kind net labels moves = .ok m ∧
        ∀ degree label, label ∉ movedLabels labels moves →
          IsZero (m.expected degree label) ∧
          (kind = .correlated → m.expected degree label = zero)) ∧
    ∀ (d : Detector F) (temperatures : List F), d.nullModel = kind → d.validate = .ok () →
      ∃ setting state, sweptAt R d net temperatures = .ok (setting, state) ∧
        (∀ degree label, label ∉ state.labels →
          IsZero (state.nullModel.expected degree label) ∧
          (kind = .correlated → state.nullModel.expected degree label = zero)) ∧
        ∀ (c : Nat) (s : Spectrum F), state.index.spectra[c]? = some s →
          ∀ label < d.labelCount net.size, label ∉ state.labels →
            ∃ level, s.level? zero = some level ∧ level.contains label = true := by
  have hpersists := persists_trim kind net
  -- what a model with the invariant expects in a vacant label
  have hvacant : ∀ (m : NullModel F) (labels : List Nat), Trim kind net m labels →
      ∀ degree label, label ∉ labels → IsZero (m.expected degree label) ∧
        (kind = .correlated → m.expected degree label = zero) := by
    intro m labels hm degree label hlabel
    refine ⟨hm.isZero_expected laws hscales hlabel degree, ?_⟩
    rintro rfl
    exact hm.expected_eq_zero hlabel degree
  refine ⟨fun labels moves hlabels hmoves => ?_, fun d temperatures hkind hvalid => ?_⟩
  · obtain ⟨m, hm, htrim⟩ := hpersists.yields_afterMoves hlabels hmoves
    exact ⟨m, hm, hvacant m _ htrim⟩
  · subst hkind
    obtain ⟨⟨setting, state⟩, hreached, rfl, hresolution, hcount, -, h⟩ :=
      yields_sweptAt (R := R) d net temperatures
    dsimp only at h hcount hresolution
    have htrim : Trim d.nullModel setting.network state.nullModel state.labels.toList :=
      has_sweptAt hpersists hreached
    have hexpected : ∀ degree label, label ∉ state.labels →
        IsZero (state.nullModel.expected degree label) ∧
          (d.nullModel = .correlated → state.nullModel.expected degree label = zero) := by
      intro degree label hlabel
      refine hvacant _ _ htrim degree label ?_
      rwa [Array.mem_toList_iff]
    refine ⟨setting, state, hreached, hexpected, fun c s hs label hlt hlabel => ?_⟩
    obtain ⟨hc, -⟩ := Array.getElem?_eq_some_iff.1 hs
    rw [h.index.size_spectra] at hc
    obtain ⟨s', hs', hfiles⟩ := h.index.spectrum c _ (List.getElem?_eq_getElem hc)
    rw [hs] at hs'
    cases hs'
    rw [hresolution] at hfiles
    refine hfiles.exists_level (by rwa [Set.mem_Iio, hcount]) ?_
    exact Spectrum.order_eq_symm (isZero_globalEnergy laws hvalid (hexpected _ _ hlabel).1)

theorem zeroLaws_exact (K : Type) [ExactScalar K] : ZeroLaws K where
  mul x z _ hz := by
    rw [IsZero, order_eq_eq, zero_eq] at hz ⊢
    rw [hz, mul_zero]
  div z x hz _ _ := by
    rw [IsZero, order_eq_eq, zero_eq] at hz ⊢
    rw [hz, zero_div]

theorem expected_vacant_path :
    (∃ m, afterMoves .uncorrelated Network.path [0, 1, 0] [(1, 0)] = .ok m ∧
      IsZero (m.expected 2 1)) ∧
    ∃ (setting : Setting ℝ) (state : State ℝ ChaCha),
      sweptAt ChaCha ⟨1, .uncorrelated, 1, 1, 1, 9, 42, false⟩ Network.path [2] =
        .ok (setting, state) ∧
      ∀ (c : Nat) (s : Spectrum ℝ), state.index.spectra[c]? = some s → ∀ label < 9,
        label ∉ state.labels → ∃ level, s.level? zero = some level ∧
          level.contains label = true := by
  have htotal : (Network.path.totalDegree : ℝ) ≠ 0 := by
    rw [Nat.cast_ne_zero]
    decide
  have hscales : Kind.Scales .uncorrelated Network.path := by
    refine fun _ => ⟨rfl, ?_⟩
    rw [IsZero, order_eq_eq, zero_eq]
    exact htotal
  have hvalid : Detector.validate (⟨1, .uncorrelated, 1, 1, 1, 9, 42, false⟩ : Detector ℝ) =
      .ok () := by
    have hone : Detector.isPositive (1 : ℝ) = true := by
      simp only [Detector.isPositive, zero_eq]
      exact Bool.and_eq_true_iff.2 ⟨rfl, decide_eq_true one_pos⟩
    exact validate_eq_ok.2 ⟨hone, hone, rfl⟩
  obtain ⟨hmoves, hsweeps⟩ := expected_vacant ChaCha (zeroLaws_exact ℝ) .uncorrelated
    Network.path hscales
  refine ⟨?_, ?_⟩
  · obtain ⟨m, hm, hexpected⟩ := hmoves [0, 1, 0] [(1, 0)] rfl (by
      change ∀ move ∈ [(1, 0)], move.1 < 3
      decide)
    exact ⟨m, hm, (hexpected 2 1 (by decide)).1⟩
  · obtain ⟨setting, state, hreached, -, hlevels⟩ :=
      hsweeps ⟨1, .uncorrelated, 1, 1, 1, 9, 42, false⟩ [2] rfl hvalid
    exact ⟨setting, state, hreached, hlevels⟩

end Potts.Annealing
