import Potts.Proofs.Annealing.Greedy
import Potts.Proofs.Annealing.Run
import Potts.Proofs.Partition.Members
import Potts.Proofs.Partition.Modularity
import Potts.Proofs.Scalar.Real
import Potts.Random.ChaCha

/-!
# Reports tell what happened

A run makes one report for every sweep. What a report says is read off records that are kept up to
date from move to move: the population, the energy index, the list of staged moves and the tables.
`reports_tell` says what the numbers mean for the labels before and after the sweep.
-/

namespace Potts

open Checked Scalar

variable {F R : Type} [Scalar F]

/-! ## Counting levels -/

theorem length_le_of_keys {l l' : List F} (hl : l.Pairwise fun a b => order a b ≠ .eq)
    (h : ∀ a ∈ l, ∃ b ∈ l', order a b = .eq) : l.length ≤ l'.length := by
  induction l generalizing l' with
  | nil => exact Nat.zero_le _
  | cons a l ih =>
    obtain ⟨ha, hl⟩ := List.pairwise_cons.1 hl
    obtain ⟨b, hb, hkey⟩ := h a List.mem_cons_self
    obtain ⟨front, back, rfl⟩ := List.append_of_mem hb
    -- the key of `a` is of no use to the others, so `b` can be left out
    have hrest : ∀ c ∈ l, ∃ e ∈ front ++ back, order c e = .eq := by
      intro c hc
      obtain ⟨e, he, hce⟩ := h c (List.mem_cons_of_mem a hc)
      refine ⟨e, ?_, hce⟩
      rcases List.mem_append.1 he with he | he
      · exact List.mem_append_left _ he
      rcases List.mem_cons.1 he with rfl | he
      · refine absurd ?_ (ha c hc)
        exact Spectrum.order_eq_trans hkey (Spectrum.order_eq_symm hce)
      · exact List.mem_append_right _ he
    have hle := ih hl hrest
    simp only [List.length_append, List.length_cons] at hle ⊢
    omega

theorem Spectrum.Files.size_eq {s : Spectrum F} {n : Nat} {energy : Nat → F}
    (h : s.Files (Set.Iio n) energy) :
    s.size = (Annealing.dedupe ((List.range n).map energy)).length := by
  have hkeys : (s.toList.map Prod.fst).Pairwise fun a b => order a b ≠ .eq := by
    rw [List.pairwise_map]
    exact s.levels.ascending.imp fun hlt heq => by rw [hlt] at heq; cases heq
  have hsize : s.size = (s.toList.map Prod.fst).length := by
    rw [List.length_map]
    rfl
  rw [hsize]
  apply Nat.le_antisymm
  · refine length_le_of_keys hkeys fun e he => ?_
    obtain ⟨level, hmem, rfl⟩ := List.mem_map.1 he
    obtain ⟨label, hlabel, hkey⟩ :=
      h.exists_level_iff.1 ⟨_, Spectrum.level?_of_mem_toList hmem⟩
    obtain ⟨kept, hkept, hkey'⟩ := Annealing.exists_mem_dedupe
      (List.mem_map.2 ⟨label, List.mem_range.2 hlabel, rfl⟩ : energy label ∈ _)
    exact ⟨kept, hkept, Spectrum.order_eq_trans hkey hkey'⟩
  · refine length_le_of_keys (Annealing.pairwise_dedupe _) fun e he => ?_
    obtain ⟨label, hlabel, rfl⟩ := List.mem_map.1 (Annealing.mem_of_mem_dedupe he)
    obtain ⟨level, hlevel, -⟩ :=
      h.exists_level (List.mem_range.1 hlabel) (Spectrum.order_self (energy label))
    obtain ⟨e, hmem, hkey⟩ := Spectrum.exists_mem_toList hlevel
    exact ⟨e, List.mem_map.2 ⟨_, hmem, rfl⟩, hkey⟩

namespace Annealing

variable {setting : Setting F} {state : State F R} {temperature : F}

/-- The number of different energies that the labels have in a degree class, those filed under one
key counted once. -/
def distinctEnergies (setting : Setting F) (m : NullModel F) (degree : Nat) : Nat :=
  (dedupe ((List.range setting.labels).map (globalEnergy setting.resolution m degree))).length

theorem Indexes.levelCount_eq {m : NullModel F} {index : EnergyIndex F}
    (h : Indexes setting m index) :
    index.levelCount = (setting.network.degreeClasses.map (distinctEnergies setting m)).sum := by
  have hsizes : index.spectra.toList.map Spectrum.size =
      setting.network.degreeClasses.map (distinctEnergies setting m) := by
    apply List.ext_getElem?
    intro c
    rw [List.getElem?_map, List.getElem?_map, Array.getElem?_toList]
    cases hc : setting.network.degreeClasses[c]? with
    | none =>
      rw [Array.getElem?_eq_none]
      · rfl
      · rw [h.size_spectra]
        exact List.getElem?_eq_none_iff.1 hc
    | some degree =>
      obtain ⟨s, hs, hfiles⟩ := h.spectrum c degree hc
      rw [hs, Option.map_some, Option.map_some, hfiles.size_eq, distinctEnergies]
  rw [← hsizes, List.sum_eq_foldr, List.foldr_map]
  rfl

/-! ## Counting moves and labels -/

omit [Scalar F] in
theorem length_stagedMoves {labels after : Array Nat} {proposals : List (Nat × Proposal F)}
    {n : Nat} (hvertices : proposals.reverse.map Prod.fst = List.range n)
    (hafter : ∀ choice ∈ proposals, after[choice.1]? = some choice.2.label) :
    (stagedMoves labels proposals).length =
      (List.range n).countP fun v => decide (labels[v]? ≠ after[v]?) := by
  rw [stagedMoves, List.length_map, ← List.countP_eq_length_filter, ← hvertices, List.countP_map]
  refine List.countP_congr fun choice hchoice => ?_
  rw [Function.comp_apply, hafter choice (List.mem_reverse.1 hchoice)]

omit [Scalar F] in
theorem occupied_eq {population : Population} {labels : List Nat}
    (h : population.Counts labels) : population.occupied = labels.toFinset.card := by
  rw [h.shows.occupied_eq, List.toFinset_coe]

/-! ## Reports -/

/-- What a report says of a sweep that leads from one state to another. Each vertex made one
proposal, which says whether it was greedy. -/
structure Tells [RandomSource R] (setting : Setting F) (before : State F R)
    (outcome : SweepOutcome F) (after : State F R) (t : Nat) (temperature : F)
    (report : SweepReport F) : Prop where
  sweep_eq : report.sweep = t
  temperature_eq : report.temperature = temperature
  moved_eq : report.moved = (List.range setting.network.size).countP fun v =>
    decide (before.labels[v]? ≠ after.labels[v]?)
  occupied_eq : report.occupied = after.labels.toList.toFinset.card
  levels_eq : report.levels =
    (setting.network.degreeClasses.map (distinctEnergies setting after.nullModel)).sum
  steepest_iff : report.steepest = true ↔
    ∃ v < setting.network.size, ProposesGreedily setting before temperature v
  proposals_eq : outcome.proposals.map Prod.fst = List.range setting.network.size
  proposals_iff : ∀ choice ∈ outcome.proposals,
    (choice.2.steepest = true ↔ ProposesGreedily setting before temperature choice.1)

theorem Consistent.yields_sweep_tells [RandomSource R] (h : Consistent setting state)
    (d : Detector F) (t : Nat) :
    Yields (sweep setting state (d.cooling.temperature t)) fun swept =>
      Tells setting state swept.1 swept.2 t (d.cooling.temperature t)
        (SweepRecord.of d t swept.1 swept.2).report := by
  obtain ⟨⟨outcome, after⟩, hsweep, hafter, -⟩ := h.yields_sweep (d.cooling.temperature t)
  obtain ⟨swept, hsame, hvertices, hproposals⟩ :=
    h.yields_sweep_simultaneous (d.cooling.temperature t)
  rw [hsweep] at hsame
  cases hsame
  obtain ⟨choices, hchoices, hflagged⟩ := h.yields_choose_flagged (d.cooling.temperature t)
  refine ⟨_, hsweep, ?_⟩
  -- the sweep made these choices and then moved
  simp only [sweep, bind_eq_ok] at hsweep
  obtain ⟨choices', hchoices', moves, hmoves, moved, -, hout⟩ := hsweep
  rw [hchoices] at hchoices'
  cases hchoices'
  rw [h.staged_eq_ok hflagged.choosing] at hmoves
  cases hmoves
  cases hout
  have hlabels : choices.state.labels = state.labels := by rw [hflagged.choosing.state_eq]
  refine ⟨rfl, rfl, ?_, occupied_eq hafter.population, hafter.index.levelCount_eq,
    h.any_steepest_iff hflagged, hvertices, fun choice hchoice =>
      hflagged.proposals_iff choice (List.mem_reverse.1 hchoice)⟩
  change (stagedMoves choices.state.labels choices.proposals).length = _
  rw [hlabels]
  refine length_stagedMoves hvertices fun choice hchoice => ?_
  exact (hproposals choice.1 choice.2 (List.mem_reverse.2 hchoice)).2

/-! ## Runs -/

/-- The temperatures of `count` sweeps from sweep number `t` on. -/
def temperatures (d : Detector F) (t count : Nat) : List F :=
  (List.range' t count).map d.cooling.temperature

/-- The records of the sweeps from sweep number `t` on, each with the states that it leads between.
-/
theorem Consistent.yields_sweepsFrom_records [RandomSource R] (h : Consistent setting state)
    (d : Detector F) (count t : Nat) :
    Yields (sweepsFrom d setting count t state) fun out =>
      out.1.length = count ∧ sweeps setting state (temperatures d t count) = .ok out.2 ∧
      ∀ i < count, ∃ before outcome after,
        Consistent setting before ∧ sweeps setting state (temperatures d t i) = .ok before ∧
        sweep setting before (d.cooling.temperature (t + i)) = .ok (outcome, after) ∧
        sweeps setting state (temperatures d t (i + 1)) = .ok after ∧
        out.1[i]? = some (SweepRecord.of d (t + i) outcome after) := by
  induction count generalizing t state with
  | zero => exact yields_ok ⟨rfl, rfl, fun i hi => absurd hi (Nat.not_lt_zero i)⟩
  | succ count ih =>
    obtain ⟨⟨outcome, after⟩, hsweep, hafter, -⟩ := h.yields_sweep (d.cooling.temperature t)
    obtain ⟨⟨records, last⟩, hrest, hlength, hlast, hrecords⟩ := ih hafter (t + 1)
    have hfirst : ∀ n, sweeps setting state (temperatures d t (n + 1)) =
        sweeps setting after (temperatures d (t + 1) n) := by
      intro n
      rw [temperatures, List.range'_succ, List.map_cons, sweeps, List.foldlM_cons, hsweep]
      rfl
    refine ⟨(.of d t outcome after :: records, last), ?_, ?_, ?_, fun i hi => ?_⟩
    · rw [sweepsFrom, hsweep]
      change sweepsFrom d setting count (t + 1) after >>= _ = _
      rw [hrest]
      rfl
    · rw [List.length_cons, hlength]
    · rw [hfirst, hlast]
    · cases i with
      | zero => exact ⟨state, outcome, after, h, rfl, hsweep, by rw [hfirst]; rfl, rfl⟩
      | succ i =>
        obtain ⟨before, outcome', after', hbefore, hreached, hsweep', hafter', hrecord⟩ :=
          hrecords i (by omega)
        have hnumber : t + 1 + i = t + (i + 1) := by omega
        rw [hnumber] at hsweep' hrecord
        refine ⟨before, outcome', after', hbefore, ?_, hsweep', ?_, hrecord⟩
        · rw [hfirst, hreached]
        · rw [hfirst, hafter']

/-- A run with valid settings on a network that has vertices makes one report for each of its
sweeps, in their order, and every report tells what the sweep did: which of the vertices have
another label than before, which labels are held, how many energies are told apart, and whether a
vertex was greedy. The labels that the run answers with are those after the last sweep. -/
theorem reports_tell (R : Type) [SeededSource R] (d : Detector F) (net : Network F)
    (hvalid : d.validate = .ok ()) (hsize : net.size ≠ 0) :
    ∃ (run : Run F) (setting : Setting F) (last : State F R),
      d.runNetwork R net = .ok run ∧ run.records.length = d.sweeps ∧
      setting.network = net ∧ setting.resolution = d.resolution ∧
      setting.labels = d.labelCount net.size ∧
      sweptAt R d net (temperatures d 0 d.sweeps) = .ok (setting, last) ∧
      run.labels = last.labels.toList ∧
      ∀ t < d.sweeps, ∃ record before outcome after, run.records[t]? = some record ∧
        sweptAt R d net (temperatures d 0 t) = .ok (setting, before) ∧
        sweep setting before (d.cooling.temperature t) = .ok (outcome, after) ∧
        sweptAt R d net (temperatures d 0 (t + 1)) = .ok (setting, after) ∧
        Tells setting before outcome after t (d.cooling.temperature t) record.report := by
  obtain ⟨⟨setting, first⟩, hfirst, hnetwork, hresolution, hlabels, -, hconsistent⟩ :=
    yields_start (R := R) d net
  obtain ⟨⟨records, last⟩, hsweeps, hlength, hlast, hrecords⟩ :=
    hconsistent.yields_sweepsFrom_records d d.sweeps 0
  have hreached : ∀ ts state, sweeps setting first ts = .ok state →
      sweptAt R d net ts = .ok (setting, state) := by
    intro ts state hstate
    rw [sweptAt, hfirst]
    change sweeps setting first ts >>= _ = _
    rw [hstate]
    rfl
  refine ⟨⟨net.size, net.edgeCount, setting.labels, records, last.population.occupied,
    last.labels.toList⟩, setting, last, ?_, hlength, hnetwork, hresolution, hlabels,
    hreached _ _ hlast, rfl, fun t ht => ?_⟩
  · rw [Detector.runNetwork, hvalid, if_neg hsize, anneal, hfirst]
    change Failure.ofFault (sweepsFrom d setting d.sweeps 0 first >>= _) = _
    rw [hsweeps]
    rfl
  · obtain ⟨before, outcome, after, hbefore, hto, hsweep, hthen, hrecord⟩ := hrecords t ht
    rw [Nat.zero_add] at hsweep hrecord
    obtain ⟨swept, hsame, htells⟩ := hbefore.yields_sweep_tells d t
    rw [hsweep] at hsame
    cases hsame
    exact ⟨_, before, outcome, after, hrecord, hreached _ _ hto, hsweep, hreached _ _ hthen,
      htells⟩

theorem reports_tell_path :
    ∃ run : Run ℝ,
      Detector.runNetwork ChaCha ⟨1, .uncorrelated, 2, 1, 1, 9, 42, false⟩ Network.path =
        .ok run ∧ run.records.length = 2 ∧
      ∃ (record : SweepRecord ℝ) (setting : Setting ℝ) (before after : State ℝ ChaCha)
        (outcome : SweepOutcome ℝ) (temperature : ℝ), run.records[1]? = some record ∧
        setting.network = Network.path ∧ run.labels = after.labels.toList ∧
        Tells setting before outcome after 1 temperature record.report := by
  obtain ⟨run, setting, last, hrun, hlength, hnetwork, -, -, hlast, hlabels, hrecords⟩ :=
    reports_tell ChaCha (⟨1, .uncorrelated, 2, 1, 1, 9, 42, false⟩ : Detector ℝ) Network.path
      (Detector.validate_of_pos one_pos one_pos) (by decide)
  obtain ⟨record, before, outcome, after, hrecord, -, -, hafter, htells⟩ := hrecords 1 one_lt_two
  rw [hlast] at hafter
  cases hafter
  exact ⟨run, hrun, hlength, record, setting, before, last, outcome, _, hrecord, hnetwork, hlabels,
    htells⟩

end Annealing

end Potts
