import Mathlib.Algebra.BigOperators.Group.Finset.Piecewise
import Mathlib.Algebra.Order.BigOperators.Group.Finset
import Potts.Partition.Population
import Potts.Proofs.Data.SortedMap
import Potts.Proofs.Failure.Checked

/-!
# Tallies and populations count what the vertices hold

`heldSum f labels s` is the sum of `f` over the vertices that hold the label `s`. All tallies of a
run are such sums: populations with `f = 1`, degree sums with the degree, and the label counts of a
degree class with its indicator. So one lemma, `heldSum_set`, says what a move does to all of them.

A population that `Counts` a list of labels knows the number of vertices with each label, has both
totals right and keeps no entry for an empty label. Building, adding and moving keep it so.
-/

namespace Potts

/-! ## Sums over the vertices that hold a label -/

namespace Partition

/-- The sum of `f` over the vertices that hold a label. -/
def heldSum (f : Nat → Nat) (labels : List Nat) (label : Nat) : Nat :=
  ∑ v ∈ Finset.range labels.length with labels[v]? = some label, f v

variable {f g : Nat → Nat} {labels : List Nat} {v source target label : Nat}

theorem heldSum_eq_sum_ite (f : Nat → Nat) (labels : List Nat) (label : Nat) :
    heldSum f labels label =
      ∑ v ∈ Finset.range labels.length, if labels[v]? = some label then f v else 0 := by
  rw [heldSum, Finset.sum_filter]

theorem heldSum_concat (f : Nat → Nat) (labels : List Nat) (a label : Nat) :
    heldSum f (labels ++ [a]) label =
      heldSum f labels label + if label = a then f labels.length else 0 := by
  rw [heldSum_eq_sum_ite, heldSum_eq_sum_ite, List.length_append, List.length_singleton,
    Finset.sum_range_succ]
  congr 1
  · refine Finset.sum_congr rfl fun v hv => ?_
    rw [List.getElem?_append_left (Finset.mem_range.1 hv)]
  · simp [eq_comm]

/-- What a move does: the old label loses the part of the vertex and the new one gains it. -/
theorem heldSum_set (f : Nat → Nat) (h : labels[v]? = some source) (target label : Nat) :
    heldSum f (labels.set v target) label + (if label = source then f v else 0) =
      heldSum f labels label + if label = target then f v else 0 := by
  obtain ⟨hv, -⟩ := List.getElem?_eq_some_iff.1 h
  have hmem : v ∈ Finset.range labels.length := Finset.mem_range.2 hv
  have hothers : ∀ u ∈ (Finset.range labels.length).erase v,
      (if (labels.set v target)[u]? = some label then f u else 0) =
        if labels[u]? = some label then f u else 0 := by
    intro u hu
    rw [List.getElem?_set_ne (Finset.ne_of_mem_erase hu).symm]
  rw [heldSum_eq_sum_ite, heldSum_eq_sum_ite, List.length_set,
    ← Finset.add_sum_erase _ _ hmem, ← Finset.add_sum_erase _ _ hmem, Finset.sum_congr rfl hothers,
    List.getElem?_set_self hv, h]
  simp only [Option.some.injEq, eq_comm (a := source), eq_comm (a := target)]
  omega

theorem le_heldSum (h : labels[v]? = some label) : f v ≤ heldSum f labels label := by
  obtain ⟨hv, -⟩ := List.getElem?_eq_some_iff.1 h
  exact Finset.single_le_sum (f := f) (fun _ _ => Nat.zero_le _)
    (Finset.mem_filter.2 ⟨Finset.mem_range.2 hv, h⟩)

theorem ite_le_heldSum (h : labels[v]? = some source) (label : Nat) :
    (if label = source then f v else 0) ≤ heldSum f labels label := by
  split
  · rename_i heq
    rw [heq]
    exact le_heldSum h
  · exact Nat.zero_le _

theorem heldSum_eq_zero (h : label ∉ labels) : heldSum f labels label = 0 := by
  refine Finset.sum_eq_zero fun v hv => ?_
  exact absurd (List.mem_of_getElem? (Finset.mem_filter.1 hv).2) h

theorem sum_heldSum (f : Nat → Nat) (labels : List Nat) :
    ∑ label ∈ labels.toFinset, heldSum f labels label =
      ∑ v ∈ Finset.range labels.length, f v := by
  simp only [heldSum_eq_sum_ite]
  rw [Finset.sum_comm]
  refine Finset.sum_congr rfl fun v hv => ?_
  have hlt := Finset.mem_range.1 hv
  have hmem : labels[v] ∈ labels.toFinset := List.mem_toFinset.2 (List.getElem_mem hlt)
  simp only [List.getElem?_eq_getElem hlt, Option.some.injEq, Finset.sum_ite_eq, hmem, if_true]

theorem sum_heldSum_of_subset (f : Nat → Nat) {S : Finset Nat} (h : labels.toFinset ⊆ S) :
    ∑ label ∈ S, heldSum f labels label = ∑ v ∈ Finset.range labels.length, f v := by
  rw [← sum_heldSum]
  refine (Finset.sum_subset h fun label _ hlabel => ?_).symm
  exact heldSum_eq_zero (mt List.mem_toFinset.2 hlabel)

theorem heldSum_one (labels : List Nat) (label : Nat) :
    heldSum (fun _ => 1) labels label = labels.count label := by
  induction labels using List.reverseRecOn with
  | nil => rfl
  | append_singleton labels a ih =>
    rw [heldSum_concat, ih, List.count_append, List.count_singleton]
    by_cases h : label = a
    · simp [h]
    · simp [h, Ne.symm h]

theorem mem_set_of_ne (h : labels[v]? = some source) (hlabel : label ∈ labels)
    (hne : label ≠ source) : label ∈ labels.set v target := by
  have hset := heldSum_set (fun _ => 1) h target label
  rw [heldSum_one, heldSum_one, if_neg hne] at hset
  have hpos := List.count_pos_iff.2 hlabel
  exact List.count_pos_iff.1 (by omega)

end Partition

/-! ## Tallies -/

namespace Tally

open Checked SortedMap

variable {F : Type} {t : Tally} {label less : Nat}

/-- Only labels with a positive amount have an entry. -/
def Positive (t : Tally) : Prop := ∀ label amount, SortedMap.get? t label = some amount → 0 < amount

theorem positive_empty : Positive .empty := fun label amount h => by simp at h

theorem amount_eq {value : Nat} (h : SortedMap.get? t label = some value) :
    t.amount label = value := by
  rw [amount, h, Option.getD_some]

theorem isSome_of_amount_pos (h : 0 < t.amount label) : (SortedMap.get? t label).isSome = true := by
  cases hget : SortedMap.get? t label with
  | none => simp [amount, hget] at h
  | some amount => rfl

theorem Positive.contains_iff (h : Positive t) :
    SortedMap.contains t label = true ↔ 0 < t.amount label := by
  refine ⟨fun hcontains => ?_, isSome_of_amount_pos⟩
  obtain ⟨amount, hget⟩ := SortedMap.contains_iff.1 hcontains
  rw [amount_eq hget]
  exact h label amount hget

theorem amount_raise (t : Tally) (label more other : Nat) :
    (t.raise label more).amount other = t.amount other + if other = label then more else 0 := by
  rw [amount, raise, get?_alter_label]
  by_cases h : other = label
  · rw [if_pos h, if_pos h, Option.getD_some, h, amount]
  · rw [if_neg h, if_neg h, Nat.add_zero, amount]

theorem sum_raise (t : Tally) (label more : Nat) :
    (SortedMap.values (t.raise label more)).sum = (SortedMap.values t).sum + more := by
  have h := sum_values_alter t label fun amount => some (amount.getD 0 + more)
  rw [Option.getD_some] at h
  rw [raise]
  omega

theorem Positive.raise (h : Positive t) {more : Nat} (hmore : 0 < more) (label : Nat) :
    Positive (t.raise label more) := by
  intro other amount hget
  rw [Tally.raise, get?_alter_label] at hget
  split at hget
  · cases hget
    omega
  · exact h other amount hget

theorem yields_lower (h : less ≤ t.amount label) :
    Yields (t.lower label less : Checked F Tally) fun t' =>
      (∀ other, t'.amount other = t.amount other - if other = label then less else 0) ∧
      (SortedMap.values t').sum + less = (SortedMap.values t).sum ∧
      (Positive t → Positive t') := by
  cases hget : SortedMap.get? t label with
  | none =>
    have hzero : less = 0 := by simpa [amount, hget] using h
    subst hzero
    refine ⟨t, by rw [lower, hget], fun other => by simp, rfl, id⟩
  | some amount =>
    have hle : less ≤ amount := by rwa [amount_eq hget] at h
    rw [lower, hget]
    refine (yields_sub hle rfl).bind fun rest hrest => yields_pure ?_
    subst hrest
    -- both branches change the one key, to the rest or to nothing
    have halter : ∃ f : Option Nat → Option Nat,
        (if amount - less = 0 then SortedMap.erase t label
          else SortedMap.insert t label (amount - less)) = SortedMap.alter t label f ∧
        (f (some amount)).getD 0 = amount - less ∧
        ∀ a, f (some amount) = some a → 0 < a := by
      split
      · rename_i hzero
        exact ⟨fun _ => none, rfl, hzero.symm, fun a ha => by cases ha⟩
      · rename_i hpos
        exact ⟨fun _ => some (amount - less), rfl, rfl, fun a ha => by cases ha; omega⟩
    obtain ⟨f, hf, hvalue, hpos⟩ := halter
    rw [hf]
    refine ⟨fun other => ?_, ?_, fun hpositive other a ha => ?_⟩
    · rw [Tally.amount, get?_alter_label]
      by_cases ho : other = label
      · rw [if_pos ho, if_pos ho, hget, hvalue, ho, amount_eq hget]
      · rw [if_neg ho, if_neg ho, Nat.sub_zero, Tally.amount]
    · have hsum := sum_values_alter t label f
      rw [hget, hvalue, Option.getD_some] at hsum
      omega
    · rw [get?_alter_label] at ha
      split at ha
      · rw [hget] at ha
        exact hpos a ha
      · exact hpositive other a ha

theorem yields_lower_heldSum {f : Nat → Nat} {labels : List Nat} {v source : Nat}
    (h : ∀ label, t.amount label = Partition.heldSum f labels label)
    (hv : labels[v]? = some source) (target : Nat) :
    Yields (t.lower source (f v) : Checked F Tally) fun t' =>
      ∀ label, (t'.raise target (f v)).amount label =
        Partition.heldSum f (labels.set v target) label := by
  have hle : f v ≤ t.amount source := by
    rw [h]
    exact Partition.le_heldSum hv
  refine (yields_lower hle).mono fun t' ht' label => ?_
  have hset := Partition.heldSum_set f hv target label
  have hsource := Partition.ite_le_heldSum (f := f) hv label
  rw [← h] at hset hsource
  rw [amount_raise, ht'.1]
  omega

end Tally

/-! ## Populations -/

namespace Population

open Checked Potts.Partition

variable {F : Type} {p : Population} {labels : List Nat} {v label source : Nat}

theorem count_add (p : Population) (a label : Nat) :
    (p.add a).count label = p.count label + if label = a then 1 else 0 :=
  Tally.amount_raise p.counts a 1 label

theorem recount_add (p : Population) (a : Nat) : (p.add a).recount = p.recount + 1 :=
  Tally.sum_raise p.counts a 1

theorem yields_remove (h : Tally.Positive p.counts) (hcount : 0 < p.count label)
    (htotal : 0 < p.total) :
    Yields (p.remove label : Checked F Population) fun q =>
      (∀ other, q.count other = p.count other - if other = label then 1 else 0) ∧
      q.total + 1 = p.total ∧ q.recount + 1 = p.recount ∧ Tally.Positive q.counts := by
  rw [remove, if_pos (h.contains_iff.2 hcount)]
  refine (Tally.yields_lower hcount).bind fun counts hcounts => ?_
  obtain ⟨hamount, hsum, hpositive⟩ := hcounts
  refine (yields_sub htotal rfl).bind fun total ht => yields_pure ?_
  exact ⟨hamount, by subst ht; exact Nat.sub_add_cancel htotal, hsum, hpositive h⟩

/-- A population counts the labels of a list: it has the right number for every label, both of its
totals are the length of the list, and it keeps no entry for a label that does not occur. -/
structure Counts (p : Population) (labels : List Nat) : Prop where
  count_eq : ∀ label, p.count label = labels.count label
  total_eq : p.total = labels.length
  recount_eq : p.recount = labels.length
  positive : Tally.Positive p.counts

theorem counts_empty : Counts empty [] :=
  ⟨fun _ => rfl, rfl, rfl, Tally.positive_empty⟩

theorem Counts.add (h : Counts p labels) (a : Nat) : Counts (p.add a) (labels ++ [a]) where
  count_eq label := by
    rw [count_add, h.count_eq, ← heldSum_one, ← heldSum_one, heldSum_concat]
  total_eq := by
    rw [Population.add, h.total_eq, List.length_append, List.length_singleton]
  recount_eq := by
    rw [recount_add, h.recount_eq, List.length_append, List.length_singleton]
  positive := h.positive.raise Nat.one_pos a

theorem counts_ofLabels (labels : List Nat) : Counts (ofLabels labels) labels := by
  induction labels using List.reverseRecOn with
  | nil => exact counts_empty
  | append_singleton labels a ih =>
    rw [ofLabels, List.foldl_append]
    exact ih.add a

theorem Counts.yields_transfer (h : Counts p labels) (hv : labels[v]? = some source)
    (target : Nat) :
    Yields (p.transfer source target : Checked F Population) (Counts · (labels.set v target)) := by
  have hmem : source ∈ labels := List.mem_of_getElem? hv
  have hcount : 0 < p.count source := by
    rw [h.count_eq]
    exact List.count_pos_iff.2 hmem
  have htotal : 0 < p.total := by
    rw [h.total_eq]
    exact List.length_pos_of_mem hmem
  refine (yields_remove h.positive hcount htotal).bind fun q hq => yields_pure ?_
  obtain ⟨hq, hqtotal, hqrecount, hqpositive⟩ := hq
  refine ⟨fun label => ?_, ?_, ?_, hqpositive.raise Nat.one_pos target⟩
  · have hset := heldSum_set (fun _ => 1) hv target label
    have hle := ite_le_heldSum (f := fun _ => 1) hv label
    rw [heldSum_one, ← h.count_eq] at hle
    rw [heldSum_one, heldSum_one, ← h.count_eq] at hset
    rw [count_add, hq]
    omega
  · rw [List.length_set, ← h.total_eq]
    exact hqtotal
  · rw [List.length_set, recount_add, ← h.recount_eq]
    exact hqrecount

end Population

end Potts
