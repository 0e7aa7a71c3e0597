import Mathlib.Data.Finset.Card
import Mathlib.Data.Multiset.Count
import Potts.Proofs.Failure.InPlace
import Potts.Proofs.Partition.Modularity
import Potts.Proofs.Partition.Population

/-!
# Populations are multisets of labels

A population keeps counts, a total and the set of occupied labels side by side. `Shows` says that
all of them are those of one multiset of labels. Adding, removing and transferring labels does to
the population what it does to the multiset, and it faults exactly when a label is to leave the
multiset that is not in it. A fault comes before anything is changed: `Change.inPlace` makes the
changes step by step, the count first and the total last, and no step faults after the first one.
-/

namespace Potts.Population

open Checked InPlace

variable {F : Type} {p : Population} {members : Multiset Nat} {label source target count : Nat}

/-! ## Changes -/

/-- What is done to a population. -/
inductive Change where
  | add (label : Nat)
  | remove (label : Nat)
  | transfer (source target : Nat)

/-- The population after a change. -/
def Change.apply (p : Population) : Change → Checked F Population
  | .add label => .ok (p.add label)
  | .remove label => p.remove label
  | .transfer source target => p.transfer source target

/-- The population after changes, one after the other. -/
def changed (p : Population) (changes : List Change) : Checked F Population :=
  changes.foldlM Change.apply p

/-- The multiset of the labels after a change: a label can leave it only if it is in it. -/
def Change.applyTo (members : Multiset Nat) : Change → Checked F (Multiset Nat)
  | .add label => .ok (label ::ₘ members)
  | .remove label =>
    if label ∈ members then .ok (members.erase label) else .error (.unoccupied label)
  | .transfer source target =>
    if source ∈ members then .ok (target ::ₘ members.erase source)
    else .error (.unoccupied source)

/-- The multiset of the labels after changes, one after the other. -/
def changedMembers (members : Multiset Nat) (changes : List Change) : Checked F (Multiset Nat) :=
  changes.foldlM Change.applyTo members

/-! ## What a population shows -/

/-- The records of a population agree on the multiset of the labels that its vertices hold. -/
structure Shows (p : Population) (members : Multiset Nat) : Prop where
  count_eq : ∀ label, p.count label = members.count label
  total_eq : p.total = members.card
  recount_eq : p.recount = members.card
  positive : Tally.Positive p.counts

theorem Counts.shows {labels : List Nat} (h : Counts p labels) : Shows p labels where
  count_eq label := by rw [h.count_eq, Multiset.coe_count]
  total_eq := by rw [h.total_eq, Multiset.coe_card]
  recount_eq := by rw [h.recount_eq, Multiset.coe_card]
  positive := h.positive

theorem Shows.mem_iff (h : Shows p members) : p.counts.contains label = true ↔ label ∈ members := by
  have hcount : p.counts.amount label = members.count label := h.count_eq label
  rw [h.positive.contains_iff, hcount, Multiset.count_pos]

theorem Shows.occupied_eq (h : Shows p members) : p.occupied = members.toFinset.card :=
  Tally.size_eq_card fun label => by rw [h.mem_iff, Multiset.mem_toFinset]

theorem Shows.add (h : Shows p members) (label : Nat) :
    Shows (p.add label) (label ::ₘ members) where
  count_eq other := by rw [count_add, h.count_eq, Multiset.count_cons]
  total_eq := by rw [Population.add, h.total_eq, Multiset.card_cons]
  recount_eq := by rw [recount_add, h.recount_eq, Multiset.card_cons]
  positive := h.positive.raise Nat.one_pos label

theorem Shows.yields_remove (h : Shows p members) (hlabel : label ∈ members) :
    Yields (p.remove label : Checked F Population) (Shows · (members.erase label)) := by
  have hcard := Multiset.card_erase_add_one hlabel
  have hcount : 0 < p.count label := by
    rw [h.count_eq]
    exact Multiset.count_pos.2 hlabel
  have htotal : 0 < p.total := by
    rw [h.total_eq]
    omega
  refine (Population.yields_remove h.positive hcount htotal).mono fun q hq => ?_
  obtain ⟨hcounts, hqtotal, hqrecount, hpositive⟩ := hq
  rw [h.total_eq] at hqtotal
  rw [h.recount_eq] at hqrecount
  refine ⟨fun other => ?_, by omega, by omega, hpositive⟩
  rw [hcounts, h.count_eq]
  by_cases hother : other = label
  · rw [if_pos hother, hother, Multiset.count_erase_self]
  · rw [if_neg hother, Nat.sub_zero, Multiset.count_erase_of_ne hother]

theorem Shows.remove_of_not_mem (h : Shows p members) (hlabel : label ∉ members) :
    (p.remove label : Checked F Population) = .error (.unoccupied label) := by
  rw [remove, if_neg (mt h.mem_iff.1 hlabel)]

theorem Shows.remove_eq_error_iff (h : Shows p members) {fault : Fault F} :
    p.remove label = .error fault ↔ label ∉ members ∧ fault = .unoccupied label := by
  by_cases hlabel : label ∈ members
  · obtain ⟨q, hq, -⟩ := h.yields_remove (F := F) hlabel
    rw [hq]
    exact iff_of_false (ok_ne_error q fault) fun hnot => hnot.1 hlabel
  · rw [h.remove_of_not_mem hlabel, Except.error.injEq, eq_comm]
    exact (and_iff_right hlabel).symm

theorem Shows.transfer_eq_error_iff (h : Shows p members) {fault : Fault F} :
    p.transfer source target = .error fault ↔ source ∉ members ∧ fault = .unoccupied source := by
  rw [transfer, bind_pure_eq_error_iff, h.remove_eq_error_iff]

/-- A change does to a population what it does to the multiset of the labels, and faults as well. -/
theorem Shows.matches_apply (h : Shows p members) (change : Change) :
    Matches Shows (change.apply p : Checked F Population) (change.applyTo members) := by
  cases change with
  | add label => exact .ok (h.add label)
  | remove label =>
    rw [Change.apply, Change.applyTo]
    by_cases hlabel : label ∈ members
    · obtain ⟨q, hq, hshows⟩ := h.yields_remove (F := F) hlabel
      rw [hq, if_pos hlabel]
      exact .ok hshows
    · rw [h.remove_of_not_mem hlabel, if_neg hlabel]
      exact .error _
  | transfer source target =>
    rw [Change.apply, Change.applyTo, transfer]
    by_cases hsource : source ∈ members
    · obtain ⟨q, hq, hshows⟩ := h.yields_remove (F := F) hsource
      rw [hq, if_pos hsource]
      exact .ok (hshows.add target)
    · rw [h.remove_of_not_mem hsource, if_neg hsource]
      exact .error _

theorem Shows.unique {q : Population} (h : Shows p members) (h' : Shows q members) : p = q := by
  have hcounts : p.counts = q.counts := by
    refine SortedMap.ext_of_get? fun label => ?_
    have hamount : p.counts.amount label = q.counts.amount label := by
      have hp : p.counts.amount label = members.count label := h.count_eq label
      exact hp.trans (h'.count_eq label).symm
    have hcontains : p.counts.contains label = q.counts.contains label := by
      rw [Bool.eq_iff_iff, h.mem_iff, h'.mem_iff]
    rw [SortedMap.contains, SortedMap.contains] at hcontains
    rw [Tally.amount, Tally.amount] at hamount
    cases hp : SortedMap.get? p.counts label <;> cases hq : SortedMap.get? q.counts label <;>
      simp_all
  have htotal : p.total = q.total := h.total_eq.trans h'.total_eq.symm
  cases p
  cases q
  cases hcounts
  cases htotal
  rfl

theorem Shows.transfer_self (h : Shows p members) (hlabel : label ∈ members) :
    (p.transfer label label : Checked F Population) = .ok p := by
  obtain ⟨q, hq, hshows⟩ := h.yields_remove (F := F) hlabel
  have hback : Shows (q.add label) members := by
    have hadd := hshows.add label
    rwa [Multiset.cons_erase hlabel] at hadd
  rw [transfer, hq, h.unique hback]
  rfl

/-! ## Step by step -/

/-- One vertex leaves `label`: its count falls, the entry goes with the last vertex, and then the
total falls. -/
def removeInPlace (label : Nat) : InPlace F Population Unit := do
  let p ← get
  let count ← check (expect (.unoccupied label) (p.counts.get? label))
  let rest ← check (sub count 1)
  modify fun p => { p with counts := p.counts.insert label rest }
  if rest = 0 then modify fun p => { p with counts := p.counts.erase label }
  let p ← get
  let total ← check (sub p.total 1)
  modify fun p => { p with total := total }

/-- A change that is made in place. -/
def Change.inPlace : Change → InPlace F Population Unit
  | .add label => modify fun p => p.add label
  | .remove label => removeInPlace label
  | .transfer source target => do
    removeInPlace source
    modify fun p => p.add target

theorem remove_eq (hget : p.counts.get? label = some count) (hcount : 0 < count)
    (htotal : 0 < p.total) : (p.remove label : Checked F Population) =
      .ok ⟨if count - 1 = 0 then p.counts.erase label else p.counts.insert label (count - 1),
        p.total - 1⟩ := by
  rw [remove, if_pos (SortedMap.contains_iff.2 ⟨count, hget⟩), Tally.lower, hget]
  simp only [sub_eq_ok hcount, sub_eq_ok htotal, ok_bind]
  rfl

theorem Shows.performs_remove (h : Shows p members) (label : Nat) :
    Performs (removeInPlace label) p (p.remove label : Checked F Population) := by
  change (removeInPlace label).run.run p = _
  by_cases hlabel : label ∈ members
  · obtain ⟨count, hget⟩ := SortedMap.contains_iff.1 (h.mem_iff.2 hlabel)
    have hcount : 0 < count := h.positive label count hget
    have htotal : 0 < p.total := by
      rw [h.total_eq]
      exact Multiset.card_pos_iff_exists_mem.2 ⟨label, hlabel⟩
    -- the entry that goes is the one that has come down to zero
    have herase : (p.counts.insert label (count - 1)).erase label = p.counts.erase label :=
      SortedMap.alter_alter hget rfl
    rw [remove_eq hget hcount htotal, removeInPlace]
    simp only [run_bind, run_get, run_check, run_modify, hget, expect, sub_eq_ok hcount]
    split
    · simp only [run_bind, run_get, run_check, run_modify, sub_eq_ok htotal, herase]
    · simp only [run_bind, run_get, run_check, run_modify, sub_eq_ok htotal]
  · have hget : p.counts.get? label = none :=
      Option.not_isSome_iff_eq_none.1 (mt h.mem_iff.1 hlabel)
    rw [h.remove_of_not_mem hlabel, removeInPlace]
    simp only [run_bind, run_get, run_check, hget, expect]

theorem Shows.performs_apply (h : Shows p members) (change : Change) :
    Performs change.inPlace p (change.apply p : Checked F Population) := by
  cases change with
  | add label => exact performs_modify _ p
  | remove label => exact h.performs_remove label
  | transfer source target => exact (h.performs_remove source).bind_modify _

/-! ## Histories -/

/-- Whatever is added to the population of a list, removed from it and transferred in it, it ends
like the multiset of the labels under the same changes: with the same fault, or with a population
that shows the multiset. Its counts are the multiplicities, both of its totals are the size, the
occupied labels are as many as the multiset has different ones, and no entry is zero. The next
change faults only because a label is to leave that is not there, which is found before anything is
changed, and transferring a label that is there to itself changes nothing. -/
theorem changed_ofLabels (F : Type) (labels : List Nat) (changes : List Change) :
    Matches
      (fun p members => (∀ label, p.count label = members.count label) ∧
        p.total = members.card ∧ p.recount = members.card ∧
        p.occupied = members.toFinset.card ∧
        (∀ label amount, p.counts.get? label = some amount → 0 < amount) ∧
        (∀ label (fault : Fault F), p.remove label = .error fault ↔
          members.count label = 0 ∧ fault = .unoccupied label) ∧
        (∀ source target (fault : Fault F), p.transfer source target = .error fault ↔
          members.count source = 0 ∧ fault = .unoccupied source) ∧
        (∀ change : Change, Performs change.inPlace p (change.apply p : Checked F Population)) ∧
        ∀ label, 0 < members.count label →
          (p.transfer label label : Checked F Population) = .ok p)
      ((ofLabels labels).changed changes : Checked F Population)
      (changedMembers labels changes) := by
  have hrun : Matches Shows ((ofLabels labels).changed changes : Checked F Population)
      (changedMembers labels changes) :=
    Matches.foldlM (counts_ofLabels labels).shows fun change _ _ _ h => h.matches_apply change
  refine hrun.mono fun p members h => ⟨h.count_eq, h.total_eq, h.recount_eq, h.occupied_eq,
    h.positive, fun label fault => ?_, fun source target fault => ?_, h.performs_apply,
    fun label hlabel => h.transfer_self (Multiset.count_pos.1 hlabel)⟩
  · rw [Multiset.count_eq_zero]
    exact h.remove_eq_error_iff
  · rw [Multiset.count_eq_zero]
    exact h.transfer_eq_error_iff

end Potts.Population
