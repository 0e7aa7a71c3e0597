import Mathlib.Data.List.Forall2
import Potts.Annealing.Trials
import Potts.Proofs.Annealing.Links
import Potts.Proofs.Annealing.Run
import Potts.Proofs.Partition.Modularity
import Potts.Proofs.Scalar.Binary64
import Potts.Random.ChaCha

/-!
# The winner of the trials

Trials on a graph always have a winner. A trial leads as long as the later scores are at most its
own, so a score that is not a number takes the lead from any other one and loses it to the next one,
whatever that is. The winner is the first trial with the highest score if all scores are numbers;
else the trials up to the last score that is not a number do not count.
-/

namespace Potts

open Annealing Checked

/-! ## The leader -/

namespace Trial

/-- The trial at place `t` leads. Every score behind it is at most its own; every score before it is
below its own, unless some score from there on, up to its own, is not a number. -/
structure Leads (trials : List (Trial Float)) (t : Nat) (winner : Trial Float) : Prop where
  getElem?_eq : trials[t]? = some winner
  later_le : ∀ i c, t < i → trials[i]? = some c → c.modularity ≤ winner.modularity
  earlier_lt : ∀ i c, i < t → trials[i]? = some c → c.modularity < winner.modularity ∨
    ∃ j b, i ≤ j ∧ j ≤ t ∧ trials[j]? = some b ∧ b.modularity.isNaN = true

variable {trials : List (Trial Float)} {t : Nat} {best winner c : Trial Float}

theorem lt_length {i : Nat} {b : Trial Float} (h : trials[i]? = some b) : i < trials.length :=
  (List.getElem?_eq_some_iff.1 h).1

theorem getElem?_concat {i : Nat} {b : Trial Float} :
    (trials ++ [c])[i]? = some b ↔ trials[i]? = some b ∨ i = trials.length ∧ c = b := by
  rcases Nat.lt_trichotomy i trials.length with hi | rfl | hi
  · rw [List.getElem?_append_left hi]
    simp [hi.ne]
  · simp
  · rw [List.getElem?_eq_none (by simp; omega), List.getElem?_eq_none hi.le]
    simp [hi.ne']

theorem leads_singleton (c : Trial Float) : Leads [c] 0 c where
  getElem?_eq := rfl
  later_le i b hi hb := by
    have := lt_length hb
    simp only [List.length_singleton] at this
    omega
  earlier_lt i b hi _ := absurd hi (Nat.not_lt_zero i)

theorem Leads.keep (h : Leads trials t best) (hle : c.modularity ≤ best.modularity) :
    Leads (trials ++ [c]) t best where
  getElem?_eq := getElem?_concat.2 (Or.inl h.getElem?_eq)
  later_le i b hi hb := by
    rcases getElem?_concat.1 hb with hb | ⟨-, rfl⟩
    · exact h.later_le i b hi hb
    · exact hle
  earlier_lt i b hi hb := by
    have ht := lt_length h.getElem?_eq
    have hb' := (getElem?_concat.1 hb).resolve_right (by omega)
    rcases h.earlier_lt i b hi hb' with hlt | ⟨j, a, hij, hjt, ha, hnan⟩
    · exact Or.inl hlt
    · exact Or.inr ⟨j, a, hij, hjt, getElem?_concat.2 (Or.inl ha), hnan⟩

theorem Leads.le_or (h : Leads trials t best) {i : Nat} (hc : trials[i]? = some c) :
    c.modularity ≤ best.modularity ∨
      ∃ j b, i ≤ j ∧ trials[j]? = some b ∧ b.modularity.isNaN = true := by
  rcases Nat.lt_trichotomy i t with hi | rfl | hi
  · rcases h.earlier_lt i c hi hc with hlt | ⟨j, b, hij, -, hb, hnan⟩
    · exact Or.inl (Binary64.le_of_lt hlt)
    · exact Or.inr ⟨j, b, hij, hb, hnan⟩
  · cases hnan : c.modularity.isNaN with
    | true => exact Or.inr ⟨i, c, le_rfl, hc, hnan⟩
    | false =>
      rw [h.getElem?_eq] at hc
      cases hc
      exact Or.inl (Binary64.le_self_iff.2 hnan)
  · exact Or.inl (h.later_le i c hi hc)

/-- Any other trial takes the lead: its score is above the leader's, or one of the two is not a
number. -/
theorem Leads.change (h : Leads trials t best) (hnle : ¬c.modularity ≤ best.modularity) :
    Leads (trials ++ [c]) trials.length c where
  getElem?_eq := getElem?_concat.2 (Or.inr ⟨rfl, rfl⟩)
  later_le i b hi hb := by
    have := lt_length hb
    simp only [List.length_append, List.length_singleton] at this
    omega
  earlier_lt i b hi hb := by
    have hb' := (getElem?_concat.1 hb).resolve_right (by omega)
    rcases h.le_or hb' with hle | ⟨j, a, hij, ha, hnan⟩
    · cases hnan : c.modularity.isNaN with
      | true =>
        refine Or.inr ⟨trials.length, c, hi.le, le_rfl, ?_, hnan⟩
        exact getElem?_concat.2 (Or.inr ⟨rfl, rfl⟩)
      | false =>
        have hlt := Binary64.lt_of_not_le (Binary64.isNaN_of_le hle).2 hnan hnle
        exact Or.inl (Binary64.lt_of_le_of_lt hle hlt)
    · exact Or.inr ⟨j, a, hij, (lt_length ha).le, getElem?_concat.2 (Or.inl ha), hnan⟩

theorem winner?_concat (trials : List (Trial Float)) (c : Trial Float) :
    winner? (trials ++ [c]) = leader (winner? trials) c := by
  rw [winner?, List.foldl_append]
  rfl

theorem exists_leads (hne : trials ≠ []) :
    ∃ t winner, winner? trials = some winner ∧ Leads trials t winner := by
  -- the induction adds a trial at the end, as the fold does
  induction trials using List.reverseRecOn with
  | nil => exact absurd rfl hne
  | append_singleton trials c ih =>
    rw [winner?_concat]
    by_cases hnil : trials = []
    · subst hnil
      exact ⟨0, c, rfl, leads_singleton c⟩
    · obtain ⟨t, best, hbest, h⟩ := ih hnil
      rw [hbest, leader]
      split
      next hle => exact ⟨t, best, rfl, h.keep hle⟩
      next hnle => exact ⟨trials.length, c, rfl, h.change hnle⟩

theorem Leads.highest (h : Leads trials t winner)
    (hnumbers : ∀ c ∈ trials, c.modularity.isNaN = false) {i : Nat} (hc : trials[i]? = some c) :
    c.modularity ≤ winner.modularity ∧ (i < t → c.modularity < winner.modularity) := by
  have hnone : ∀ {j : Nat} {b : Trial Float}, trials[j]? = some b →
      ¬b.modularity.isNaN = true := fun hb => by
    rw [hnumbers _ (List.mem_of_getElem? hb)]
    decide
  refine ⟨(h.le_or hc).resolve_right ?_, fun hi => (h.earlier_lt i c hi hc).resolve_right ?_⟩
  · rintro ⟨j, b, -, hb, hnan⟩
    exact hnone hb hnan
  · rintro ⟨j, b, -, -, hb, hnan⟩
    exact hnone hb hnan

theorem Leads.le_of_isNaN (h : Leads trials t winner) {i : Nat} (hc : trials[i]? = some c)
    (hnan : c.modularity.isNaN = true) : i ≤ t := by
  by_contra hlt
  have hnumber := (Binary64.isNaN_of_le (h.later_le i c (by omega) hc)).1
  rw [hnan] at hnumber
  cases hnumber

end Trial

/-! ## Scores -/

theorem Partition.expectedWeight_pair (net : Network Float) {a b : Nat} (h : a ≤ b) :
    expectedWeight net [a, b] =
      Scalar.sum [(a : Float) * (a : Float), (b : Float) * (b : Float)] /
        ((net.totalDegree : Nat) : Float) := by
  have hsort : [a, b].mergeSort = [a, b] := List.mergeSort_of_pairwise (by simpa using h)
  rw [expectedWeight, hsort]
  rfl

/-- If the doubled weight of a network overflows, every score is a zero or not a number. -/
theorem Partition.modularity_of_overflow {net : Network Float} {labels : List Nat} {q : Float}
    (h : modularity net labels = .ok q) (hoverflow : (Scalar.two * net.totalWeight).isInf = true) :
    q.isNaN = true ∨ (q == 0) = true := by
  rw [modularity] at h
  split at h
  · cases h
  · split at h
    · cases h
      exact Or.inr (by decide)
    · dsimp only at h
      split at h
      · cases h
        exact Or.inr (by decide)
      · cases h
        exact Binary64.div_of_isInf hoverflow

/-- The weights need not be infinite for that. -/
example : (1e308 : Float).isFinite = true ∧ (Scalar.two * (1e308 : Float)).isInf = true := by
  decide +kernel

/-! ## The trials -/

section Make

variable {F : Type} [Scalar F] {d : Detector F} {net : Network F}

/-- What trial `number` of a detector on a network is: it runs with the seed of the detector raised
by the number, the run labels every vertex, and the score is the modularity of the labels. -/
structure Trial.IsOf (R : Type) [SeededSource R] (d : Detector F) (net : Network F) (number : Nat)
    (trial : Trial F) : Prop where
  number_eq : trial.number = number
  seed_eq : trial.seed.toNat = (d.seed.toNat + number) % 2 ^ 64
  run_eq : Detector.runNetwork R { d with seed := trial.seed } net = .ok trial.run
  length_labels : trial.run.labels.length = net.size
  label_lt : ∀ label ∈ trial.run.labels, label < d.labelCount net.size
  modularity_eq : Partition.modularity net trial.run.labels = .ok trial.modularity

theorem Trial.toNat_seedOf (seed : UInt64) (number : Nat) :
    (seedOf seed number).toNat = (seed.toNat + number) % 2 ^ 64 := by
  rw [seedOf, UInt64.toNat_add, UInt64.toNat_ofNat', Nat.add_mod_mod]

theorem Trial.exists_make (R : Type) [SeededSource R] (hvalid : d.validate = .ok ())
    (hsize : net.size ≠ 0) (number : Nat) :
    ∃ trial, Trial.make R d net number = .ok trial ∧ Trial.IsOf R d net number trial := by
  obtain ⟨run, hrun, hlength, hlt⟩ :=
    yields_anneal (R := R) { d with seed := seedOf d.seed number } net
  obtain ⟨q, hq⟩ := Partition.exists_modularity net run.labels hlength
  have hnetwork : Detector.runNetwork R { d with seed := seedOf d.seed number } net = .ok run := by
    have hvalid' : Detector.validate { d with seed := seedOf d.seed number } = .ok () := hvalid
    rw [Detector.runNetwork, hvalid', if_neg hsize, hrun]
    rfl
  refine ⟨⟨number, seedOf d.seed number, run, q⟩, ?_,
    ⟨rfl, toNat_seedOf _ _, hnetwork, hlength, hlt, hq⟩⟩
  rw [make, hnetwork]
  change Failure.ofError (Partition.modularity net run.labels) >>= _ = _
  rw [hq]
  rfl

theorem Trial.exists_makes (R : Type) [SeededSource R] (hvalid : d.validate = .ok ())
    (hsize : net.size ≠ 0) (numbers : List Nat) :
    ∃ trials, numbers.mapM (Trial.make R d net) = .ok trials ∧
      List.Forall₂ (Trial.IsOf R d net) numbers trials := by
  induction numbers with
  | nil => exact ⟨[], rfl, List.Forall₂.nil⟩
  | cons number numbers ih =>
    obtain ⟨trial, htrial, hof⟩ := exists_make R hvalid hsize number
    obtain ⟨trials, htrials, hall⟩ := ih
    refine ⟨trial :: trials, ?_, List.Forall₂.cons hof hall⟩
    rw [List.mapM_cons, htrial, htrials]
    rfl

end Make

/-! ## The contest -/

namespace Detector

variable {d : Detector Float} {g : Multigraph} {weights : Option (List Float)}
  {net : Network Float} {count : Nat}

theorem contest_eq {R : Type} [SeededSource R] {trials : List (Trial Float)} {winner : Trial Float}
    (hsize : net.size ≠ 0) (htrials : (List.range count).mapM (Trial.make R d net) = .ok trials)
    (hwinner : Trial.winner? trials = some winner) :
    d.contest R count net = .ok ⟨trials, winner⟩ := by
  rw [contest, if_neg hsize]
  change (List.range count).mapM (Trial.make R d net) >>= _ = _
  rw [htrials]
  simp only [bind, Except.bind, hwinner]
  rfl

theorem exists_contest (R : Type) [SeededSource R] (hvalid : d.validate = .ok ())
    (hsize : net.size ≠ 0) (hcount : 1 ≤ count) :
    ∃ trials t winner, d.contest R count net = .ok ⟨trials, winner⟩ ∧ trials.length = count ∧
      (∀ i trial, trials[i]? = some trial → Trial.IsOf R d net i trial) ∧
      Trial.Leads trials t winner := by
  obtain ⟨trials, htrials, hall⟩ := Trial.exists_makes R hvalid hsize (List.range count)
  obtain ⟨hlength, hof⟩ := List.forall₂_iff_get.1 hall
  rw [List.length_range] at hlength
  have hne : trials ≠ [] := by
    rw [← List.length_pos_iff]
    omega
  obtain ⟨t, winner, hwinner, hleads⟩ := Trial.exists_leads hne
  refine ⟨trials, t, winner, contest_eq hsize htrials hwinner, hlength.symm, ?_, hleads⟩
  intro i trial htrial
  obtain ⟨hi, rfl⟩ := List.getElem?_eq_some_iff.1 htrial
  have hat := hof i (by rw [List.length_range]; omega) hi
  simpa using hat

/-- A valid detector makes any positive number of trials on a graph with vertices and with weights
that can be used. They run with the seeds from its own one on, and one of them wins. Every later
score is at most the winner's. Every earlier score is below it, unless some score from there on, up
to the winner's, is not a number. So no trial before a score that is not a number wins, and if all
scores are numbers, the winner is the first trial with the highest score. -/
theorem bestOfTrials_winner (R : Type) [SeededSource R] (hvalid : d.validate = .ok ())
    (hnet : Network.ofGraph g weights = .ok net) (hvertices : g.vertices ≠ 0) (count : Nat)
    (hcount : 1 ≤ count) :
    ∃ contest, d.bestOfTrials R g weights count = .ok contest ∧ contest.trials.length = count ∧
      contest.winner.number < count ∧
      (∀ number < count, ∃ trial, contest.trials[number]? = some trial ∧
        Trial.IsOf R d net number trial) ∧
      Trial.Leads contest.trials contest.winner.number contest.winner ∧
      (∀ trial ∈ contest.trials, trial.modularity.isNaN = true →
        trial.number ≤ contest.winner.number) ∧
      ((∀ trial ∈ contest.trials, trial.modularity.isNaN = false) →
        ∀ trial ∈ contest.trials, trial.modularity ≤ contest.winner.modularity ∧
          (trial.number < contest.winner.number →
            trial.modularity < contest.winner.modularity)) := by
  have hsize : net.size ≠ 0 := by rwa [Network.size_of_ofGraph hnet]
  obtain ⟨trials, t, winner, hcontest, hlength, hat, hleads⟩ :=
    exists_contest R hvalid hsize hcount
  have ht : winner.number = t := (hat t winner hleads.getElem?_eq).number_eq
  have hlt := Trial.lt_length hleads.getElem?_eq
  refine ⟨⟨trials, winner⟩, ?_, hlength, by dsimp only; omega, fun number hnumber => ?_, ?_,
    fun trial htrial hnan => ?_, fun hnumbers trial htrial => ?_⟩
  · rw [bestOfTrials_eq, if_neg (by omega), hvalid, hnet]
    exact hcontest
  · have hget := List.getElem?_eq_getElem (by omega : number < trials.length)
    exact ⟨_, hget, hat number _ hget⟩
  · rw [ht]
    exact hleads
  · obtain ⟨i, hi⟩ := List.mem_iff_getElem?.1 htrial
    rw [(hat i trial hi).number_eq, ht]
    exact hleads.le_of_isNaN hi hnan
  · obtain ⟨i, hi⟩ := List.mem_iff_getElem?.1 htrial
    rw [(hat i trial hi).number_eq, ht]
    exact hleads.highest hnumbers hi

/-- The network of two joined vertices. -/
def joined : Network Float where
  size := 2
  edges := [⟨0, 1, Scalar.one⟩]
  edges_valid := by
    intro e he
    rw [List.mem_singleton.1 he]
    decide
  adjacency := adjacencyRows 2 [⟨0, 1, Scalar.one⟩]
  adjacency_eq := rfl
  totalWeight := Scalar.sum [Scalar.one]
  totalWeight_eq := rfl

theorem isNaN_modularity_joined {labels : List Nat} {q : Float}
    (hlength : labels.length = joined.size)
    (hlt : ∀ label ∈ labels, label < standard.labelCount joined.size)
    (hq : Partition.modularity joined labels = .ok q) : q.isNaN = false := by
  obtain ⟨a, b, rfl⟩ := List.length_eq_two.1 hlength
  have ha : a < 2 := hlt a (by simp)
  have hb : b < 2 := hlt b (by simp)
  have hexpected : Partition.expectedWeight joined [1, 1] = Scalar.one := by
    rw [Partition.expectedWeight_pair joined (le_refl 1)]
    decide +kernel
  have happart : ∀ labels : List Nat, Partition.modularity joined labels =
      .ok ((Partition.internalWeight joined labels.toArray -
        Partition.expectedWeight joined [1, 1]) / (Scalar.two * joined.totalWeight)) →
      Partition.internalWeight joined labels.toArray = Scalar.zero →
      Partition.modularity joined labels = .ok q → q.isNaN = false := by
    intro labels h hzero hq
    rw [h, hzero, hexpected] at hq
    cases hq
    decide +kernel
  obtain rfl | rfl : a = 0 ∨ a = 1 := by omega
  · obtain rfl | rfl : b = 0 ∨ b = 1 := by omega
    · cases hq
      decide
    · exact happart [0, 1] rfl (by decide +kernel) hq
  · obtain rfl | rfl : b = 0 ∨ b = 1 := by omega
    · exact happart [1, 0] rfl (by decide +kernel) hq
    · cases hq
      decide

theorem bestOfTrials_winner_segment :
    Network.ofGraph segment none = .ok joined ∧
      ∃ contest, standard.bestOfTrials ChaCha segment none 3 = .ok contest ∧
        contest.trials.length = 3 ∧ contest.winner.number < 3 ∧
        (∃ trial, contest.trials[2]? = some trial ∧ trial.seed = 44 ∧
          Trial.IsOf ChaCha standard joined 2 trial) ∧
        ∀ trial ∈ contest.trials, trial.modularity ≤ contest.winner.modularity ∧
          (trial.number < contest.winner.number →
            trial.modularity < contest.winner.modularity) := by
  have hnet : Network.ofGraph segment none = .ok joined := by rfl
  obtain ⟨contest, hcontest, hlength, hnumber, htrials, -, -, hhighest⟩ :=
    bestOfTrials_winner (d := standard) ChaCha (by rfl) hnet (by decide) 3 (by decide)
  obtain ⟨trial, htrial, hof⟩ := htrials 2 (by decide)
  refine ⟨hnet, contest, hcontest, hlength, hnumber,
    ⟨trial, htrial, UInt64.toNat_inj.1 hof.seed_eq, hof⟩, hhighest fun c hc => ?_⟩
  obtain ⟨i, hi⟩ := List.mem_iff_getElem?.1 hc
  obtain ⟨c', hc', hof'⟩ := htrials i (by rw [← hlength]; exact Trial.lt_length hi)
  rw [hi] at hc'
  cases hc'
  exact isNaN_modularity_joined hof'.length_labels hof'.label_lt hof'.modularity_eq

/-- A detector that makes no sweeps. -/
def idle : Detector Float := { standard with sweeps := 0 }

/-- Two joined vertices and a third one. -/
def segmentAndPoint : Multigraph := ⟨3, [(0, 1)], false, by decide⟩

/-- A finite weight, near `1e308`, the double of which is infinite. -/
def heavy : Float := Float.ofBits 0x7fe1ccf385ebc8a0

/-- The network in which the edge weighs as much. -/
def overweight : Network Float where
  size := 3
  edges := [⟨0, 1, heavy⟩]
  edges_valid := by
    intro e he
    rw [List.mem_singleton.1 he]
    decide
  adjacency := adjacencyRows 3 [⟨0, 1, heavy⟩]
  adjacency_eq := rfl
  totalWeight := Scalar.sum [heavy]
  totalWeight_eq := rfl

/-- The labels that a run starts with, which it keeps without sweeps. -/
def firstLabels (seed : UInt64) : Option (List Nat) :=
  (runNetwork ChaCha { idle with seed := seed } overweight).toOption.map (·.labels)

theorem modularity_of_firstLabels {i : Nat} {trial : Trial Float}
    (h : Trial.IsOf ChaCha idle overweight i trial) (labels : List Nat)
    (hlabels : firstLabels (Trial.seedOf idle.seed i) = some labels) :
    Partition.modularity overweight labels = .ok trial.modularity := by
  have hseed : trial.seed = Trial.seedOf idle.seed i :=
    UInt64.toNat_inj.1 (h.seed_eq.trans (Trial.toNat_seedOf idle.seed i).symm)
  rw [← hseed, firstLabels, h.run_eq] at hlabels
  cases hlabels
  exact h.modularity_eq

theorem modularity_overweight_apart : Partition.modularity overweight [0, 1, 0] =
    .ok ((Partition.internalWeight overweight #[0, 1, 0] - Scalar.one) /
      (Scalar.two * overweight.totalWeight)) := by
  have hexpected : Partition.expectedWeight overweight [1, 1] = Scalar.one := by
    rw [Partition.expectedWeight_pair overweight (le_refl 1)]
    decide +kernel
  have hscore : Partition.modularity overweight [0, 1, 0] =
      .ok ((Partition.internalWeight overweight #[0, 1, 0] -
        Partition.expectedWeight overweight [1, 1]) / (Scalar.two * overweight.totalWeight)) := by
    rfl
  rw [hscore, hexpected]

theorem modularity_overweight_together : Partition.modularity overweight [2, 2, 1] =
    .ok ((Partition.internalWeight overweight #[2, 2, 1] - Scalar.two) /
      (Scalar.two * overweight.totalWeight)) := by
  have hexpected : Partition.expectedWeight overweight [0, 2] = Scalar.two := by
    rw [Partition.expectedWeight_pair overweight (Nat.zero_le 2)]
    decide +kernel
  have hscore : Partition.modularity overweight [2, 2, 1] =
      .ok ((Partition.internalWeight overweight #[2, 2, 1] -
        Partition.expectedWeight overweight [0, 2]) / (Scalar.two * overweight.totalWeight)) := by
    rfl
  rw [hscore, hexpected]

/-- The third trial wins, although its score is not above that of the first one: between them stands
a score that is not a number. -/
theorem bestOfTrials_overweight :
    ∃ contest first, idle.bestOfTrials ChaCha segmentAndPoint (some [heavy]) 3 = .ok contest ∧
      contest.trials[0]? = some first ∧ contest.winner.number = 2 ∧
      first.modularity.isNaN = false ∧ ¬first.modularity < contest.winner.modularity := by
  have hnet : Network.ofGraph segmentAndPoint (some [heavy]) = .ok overweight := by rfl
  have hvalid : idle.validate = .ok () := by rfl
  obtain ⟨trials, t, winner, hcontest, hlength, hat, hleads⟩ :=
    exists_contest ChaCha hvalid (show overweight.size ≠ 0 by decide) (show 1 ≤ 3 by decide)
  obtain ⟨first, second, third, rfl⟩ := List.length_eq_three.1 hlength
  have hfirst := modularity_of_firstLabels (hat 0 first rfl) [0, 1, 0] (by decide +kernel)
  have hsecond := modularity_of_firstLabels (hat 1 second rfl) [2, 2, 1] (by decide +kernel)
  have hthird := modularity_of_firstLabels (hat 2 third rfl) [1, 1, 1] (by decide +kernel)
  rw [modularity_overweight_apart] at hfirst
  rw [modularity_overweight_together] at hsecond
  have hnan : second.modularity.isNaN = true := by
    rw [← Except.ok.inj hsecond]
    decide +kernel
  have hzero : third.modularity = Scalar.zero := (Except.ok.inj hthird).symm
  have hle : 1 ≤ t := hleads.le_of_isNaN (i := 1) rfl hnan
  have hlt := Trial.lt_length hleads.getElem?_eq
  have ht : t = 2 := by
    by_contra hne
    obtain rfl : t = 1 := by simp at hlt; omega
    obtain rfl : second = winner := Option.some.inj hleads.getElem?_eq
    have hnumber := (Binary64.isNaN_of_le (hleads.later_le 2 third (by decide) rfl)).2
    rw [hnan] at hnumber
    cases hnumber
  subst ht
  obtain rfl : third = winner := Option.some.inj hleads.getElem?_eq
  refine ⟨_, first, hcontest, rfl, (hat 2 third rfl).number_eq, ?_, ?_⟩
  · rw [← Except.ok.inj hfirst]
    decide +kernel
  · rw [hzero, ← Except.ok.inj hfirst]
    decide +kernel

end Detector

end Potts
