import Mathlib.Algebra.BigOperators.Field
import Mathlib.Data.Finset.Card
import Mathlib.Data.List.Perm.Basic
import Mathlib.Order.Interval.Finset.Nat
import Mathlib.Tactic.Ring
import Potts.Proofs.Boltzmann.Table
import Potts.Proofs.Scalar.Exact

/-!
# The weights in a table

An entry weighs what its bound exceeds the bound before it, and `validWeights` lists the energies of
the valid entries with what they weigh. In exact arithmetic with a positive exponential function
every level gets an entry, so these are the levels of the spectrum from which a table is built, and
after a patch those of the patched spectrum: the touched energies come from there, and what is left
alone is as before.
-/

namespace Potts.BoltzmannTable

/-! ## Own weights -/

section Own

variable {F : Type} [Scalar F] {entries : List (TableEntry F)}

/-- The energies and the own weights of the valid entries of a list that stands behind a bound. -/
def ownWeights (previous : F) : List (TableEntry F) → List (F × F)
  | [] => []
  | entry :: rest =>
    let others := ownWeights entry.bound rest
    if entry.valid then (entry.energy, entry.bound - previous) :: others else others

/-- The energies of the valid entries of a table, each with the weight of its entry. -/
def validWeights (t : BoltzmannTable F) : List (F × F) := ownWeights Scalar.zero t.entries.toList

/-- The last bound of a list that stands behind a bound. -/
def lastBound (previous : F) (entries : List (TableEntry F)) : F :=
  (entries.getLast?.map TableEntry.bound).getD previous

theorem total_eq_lastBound (t : BoltzmannTable F) :
    t.total = lastBound Scalar.zero t.entries.toList := by
  rw [total, lastBound, Array.getLast?_toList]

omit [Scalar F] in
theorem lastBound_cons (previous : F) (entry : TableEntry F) (entries : List (TableEntry F)) :
    lastBound previous (entry :: entries) = lastBound entry.bound entries := by
  rw [lastBound, lastBound, List.getLast?_cons]
  cases entries.getLast? <;> rfl

theorem ownWeights_append (previous : F) (entries others : List (TableEntry F)) :
    ownWeights previous (entries ++ others) =
      ownWeights previous entries ++ ownWeights (lastBound previous entries) others := by
  induction entries generalizing previous with
  | nil => rfl
  | cons entry entries ih =>
    rw [List.cons_append, ownWeights, ownWeights, ih, lastBound_cons]
    split <;> rfl

omit [Scalar F] in
theorem lastBound_map_mark (valid : F → Bool) (previous : F) (entries : List (TableEntry F)) :
    lastBound previous (entries.map fun entry => { entry with valid := valid entry.energy }) =
      lastBound previous entries := by
  rw [lastBound, lastBound, List.getLast?_map, Option.map_map]
  rfl

theorem total_patched_eq_lastBound (base : BoltzmannTable F) (invalid : List Nat)
    (appended : Array (TableEntry F)) :
    (base.patched invalid appended).total = lastBound base.total appended.toList := by
  rw [total_patched, lastBound, Array.getLast?_toList, total]
  cases appended.back?.map TableEntry.bound <;> rfl

theorem ownWeights_map_mark (valid : F → Bool) (previous : F)
    (h : ∀ entry ∈ entries, entry.valid = true) :
    ownWeights previous (entries.map fun entry => { entry with valid := valid entry.energy }) =
      (ownWeights previous entries).filter fun x => valid x.1 := by
  induction entries generalizing previous with
  | nil => rfl
  | cons entry entries ih =>
    have hrest := ih entry.bound fun entry' hentry' => h entry' (List.mem_cons_of_mem entry hentry')
    rw [List.map_cons, ownWeights, ownWeights, if_pos (h entry List.mem_cons_self),
      List.filter_cons]
    dsimp only
    rw [hrest]

end Own

/-! ## Exact arithmetic -/

variable {K : Type} [ExactScalar K] {t base : BoltzmannTable K} {s : Spectrum K}
  {touched : List K} {w : Weighing K} {n : Nat} {energy : Nat → K}

/-- The energies of the levels of a spectrum, each with the weight of its level. -/
def levelWeights (w : Weighing K) (s : Spectrum K) : List (K × K) :=
  s.toList.map fun level => (level.1, w.weight level.1 level.2.size)

/-- The levels of a spectrum at some energies, each energy with the weight of its level. -/
def touchedWeights (w : Weighing K) (s : Spectrum K) (touched : List K) : List (K × K) :=
  touched.filterMap fun e => (s.level? e).map fun level => (e, w.weight e level.size)

theorem mem_touchedWeights {x : K × K} :
    x ∈ touchedWeights w s touched ↔
      x.1 ∈ touched ∧ ∃ level, s.level? x.1 = some level ∧ x.2 = w.weight x.1 level.size := by
  obtain ⟨e, weight⟩ := x
  rw [touchedWeights, List.mem_filterMap]
  constructor
  · rintro ⟨e', he', hmap⟩
    obtain ⟨level, hlevel, heq⟩ := Option.map_eq_some_iff.1 hmap
    cases heq
    exact ⟨he', level, hlevel, rfl⟩
  · rintro ⟨he, level, hlevel, hweight⟩
    dsimp only at he hlevel hweight
    exact ⟨e, he, by rw [hlevel, Option.map_some, hweight]⟩

theorem touchedWeights_sublist (w : Weighing K) (s : Spectrum K) (touched : List K) :
    ((touchedWeights w s touched).map Prod.fst).Sublist touched := by
  rw [touchedWeights, List.map_filterMap]
  induction touched with
  | nil => exact List.Sublist.refl _
  | cons e touched ih =>
    cases hlevel : s.level? e with
    | none => simpa [hlevel] using ih.cons e
    | some level => simpa [hlevel] using ih.cons_cons e

theorem weight_pos (hexp : ∀ x : K, 0 < Scalar.exp x) (w : Weighing K) (e : K) {size : Nat}
    (hsize : 0 < size) : 0 < w.weight e size :=
  mul_pos (hexp _) (Nat.cast_pos.2 hsize)

theorem weight_nonneg (hexp : ∀ x : K, 0 < Scalar.exp x) (w : Weighing K) (e : K) (size : Nat) :
    0 ≤ w.weight e size :=
  mul_nonneg (hexp _).le (Nat.cast_nonneg size)

theorem entryFor?_of_pos {bound e : K} {size : Nat} (h : 0 < w.weight e size) :
    entryFor? w bound e size = some ⟨bound + w.weight e size, e, true⟩ := by
  have hne : (bound + w.weight e size == bound) = false := by
    change decide _ = false
    rw [decide_eq_false_iff_not]
    exact (lt_add_of_pos_right _ h).ne'
  simp only [entryFor?, hne]
  rfl

theorem validWeights_addLevel (hexp : ∀ x : K, 0 < Scalar.exp x) (t : BoltzmannTable K)
    {level : K × LabelSet} (hsize : 0 < level.2.size) :
    (t.addLevel level).validWeights =
      t.validWeights ++ [(level.1, t.weighing.weight level.1 level.2.size)] := by
  rw [addLevel, append?_eq, entryFor?_of_pos (weight_pos hexp t.weighing level.1 hsize),
    Option.map_some, validWeights, validWeights]
  dsimp only
  rw [Array.toList_push, ownWeights_append, ← total_eq_lastBound]
  simp [ownWeights]

theorem validWeights_build (hexp : ∀ x : K, 0 < Scalar.exp x)
    (hsizes : ∀ level ∈ s.toList, 0 < level.2.size) (degree : Nat)
    (strength temperature shift : K) :
    (build s degree strength temperature shift).validWeights =
      levelWeights (build s degree strength temperature shift).weighing s := by
  have key : ∀ (l : List (K × LabelSet)) (t : BoltzmannTable K), (∀ level ∈ l, 0 < level.2.size) →
      (l.foldl addLevel t).validWeights = t.validWeights ++
        l.map fun level => (level.1, t.weighing.weight level.1 level.2.size) := by
    intro l
    induction l with
    | nil => intro t _; exact (List.append_nil _).symm
    | cons level l ih =>
      intro t hl
      have hrest := ih (t.addLevel level) fun level' hlevel' =>
        hl level' (List.mem_cons_of_mem level hlevel')
      rw [List.foldl_cons, hrest, weighing_addLevel,
        validWeights_addLevel hexp t (hl level List.mem_cons_self), List.append_assoc]
      rfl
  refine (key s.toList _ hsizes).trans ?_
  rw [weighing_build]
  rfl

theorem Intact.toList_marked (h : Intact base) {invalid : List Nat}
    (hinvalid : ∀ i, i ∈ invalid ↔ ∃ e ∈ touched, base.slots.get? e = some i) :
    (marked base.entries invalid).toList = base.entries.toList.map fun entry =>
      { entry with valid := decide (entry.energy ∉ touched) } := by
  refine List.ext_getElem? fun i => ?_
  rw [Array.getElem?_toList, marked, Array.getElem?_mapIdx, List.getElem?_map,
    Array.getElem?_toList]
  cases hentry : base.entries[i]? with
  | none => rfl
  | some entry =>
    have hiff : i ∈ invalid ↔ entry.energy ∈ touched := by
      rw [hinvalid]
      constructor
      · rintro ⟨e, he, hslot⟩
        obtain ⟨entry', hentry', hkey⟩ := (h.slots_iff e i).1 hslot
        rw [hentry] at hentry'
        cases hentry'
        rwa [← Scalar.order_eq_eq.1 hkey]
      · intro hmem
        exact ⟨_, hmem, (h.slots_iff _ i).2 ⟨entry, hentry, Scalar.order_eq_eq.2 rfl⟩⟩
    simp only [Option.map_some, hiff]

theorem Intact.toList_perturb (h : Intact base) {appended : Nat}
    (hperturb : base.perturb s touched = .ok (t, appended)) :
    t.entries.toList =
      (base.entries.toList.map fun entry =>
        { entry with valid := decide (entry.energy ∉ touched) }) ++
        appendedEntries base.weighing s base.total touched := by
  rw [h.perturb_eq] at hperturb
  cases hperturb
  have hinvalid : ∀ i, i ∈ touched.foldl base.invalidatedBy [] ↔
      ∃ e ∈ touched, base.slots.get? e = some i := by
    intro i
    rw [mem_foldl_invalidatedBy]
    simp
  rw [patched]
  dsimp only
  rw [Array.toList_append, h.toList_marked hinvalid]

theorem ownWeights_appendedEntries (hexp : ∀ x : K, 0 < Scalar.exp x)
    (hsizes : ∀ e level, s.level? e = some level → 0 < level.size) (w : Weighing K) (bound : K)
    (touched : List K) :
    ownWeights bound (appendedEntries w s bound touched) = touchedWeights w s touched := by
  induction touched generalizing bound with
  | nil => rfl
  | cons e touched ih =>
    rw [appendedEntries, touchedWeights, List.filterMap_cons, ← touchedWeights]
    cases hlevel : s.level? e with
    | none => exact ih bound
    | some level =>
      rw [Option.bind_some, entryFor?_of_pos (weight_pos hexp w e (hsizes e level hlevel))]
      dsimp only [Option.map_some]
      rw [ownWeights, if_pos rfl, ih, add_sub_cancel_left]

theorem Intact.validWeights_perturb (h : Intact base) (hexp : ∀ x : K, 0 < Scalar.exp x)
    (hsizes : ∀ e level, s.level? e = some level → 0 < level.size) {appended : Nat}
    (hperturb : base.perturb s touched = .ok (t, appended)) :
    t.validWeights = (base.validWeights.filter fun x => decide (x.1 ∉ touched)) ++
      touchedWeights base.weighing s touched := by
  have hvalid : ∀ entry ∈ base.entries.toList, entry.valid = true := fun entry hentry =>
    h.valid entry (Array.mem_toList_iff.1 hentry)
  rw [validWeights, h.toList_perturb hperturb, ownWeights_append,
    lastBound_map_mark (fun e => decide (e ∉ touched)), ← total_eq_lastBound,
    ownWeights_map_mark (fun e => decide (e ∉ touched)) _ hvalid,
    ownWeights_appendedEntries hexp hsizes]
  rfl

/-! ## Levels of filed labels -/

/-- How many of the labels below `n` are at an energy. -/
def labelsAt (n : Nat) (energy : Nat → K) (e : K) : Nat :=
  ((Finset.range n).filter fun label => energy label = e).card

theorem size_level (h : s.Files (Set.Iio n) energy) {e : K} {level : LabelSet}
    (hlevel : s.level? e = some level) : level.size = labelsAt n energy e := by
  rw [SortedSet.size_eq_length, ← List.toFinset_card_of_nodup (SortedSet.nodup_toList level),
    labelsAt]
  congr 1
  ext label
  rw [List.mem_toFinset, SortedSet.mem_toList, Finset.mem_filter, Finset.mem_range]
  constructor
  · intro hlabel
    obtain ⟨hlt, hkey⟩ := h.mem_of_level hlevel hlabel
    exact ⟨hlt, (Scalar.order_eq_eq.1 hkey).symm⟩
  · rintro ⟨hlt, hkey⟩
    obtain ⟨level', hlevel', hlabel⟩ := h.exists_level hlt (Scalar.order_eq_eq.2 hkey.symm)
    rw [hlevel] at hlevel'
    cases hlevel'
    exact hlabel

theorem size_level_pos (h : s.Files (Set.Iio n) energy) {e : K} {level : LabelSet}
    (hlevel : s.level? e = some level) : 0 < level.size := by
  obtain ⟨label, hlabel⟩ := h.occupied e level hlevel
  rw [SortedSet.size_eq_length]
  exact List.length_pos_of_mem ((SortedSet.mem_toList level).2 hlabel)

theorem exists_level_weight_iff (h : s.Files (Set.Iio n) energy) (w : Weighing K) (x : K × K) :
    (∃ level, s.level? x.1 = some level ∧ x.2 = w.weight x.1 level.size) ↔
      (∃ label < n, energy label = x.1) ∧ x.2 = w.weight x.1 (labelsAt n energy x.1) := by
  constructor
  · rintro ⟨level, hlevel, hweight⟩
    obtain ⟨label, hlabel, hkey⟩ := h.exists_level_iff.1 ⟨level, hlevel⟩
    refine ⟨⟨label, hlabel, (Scalar.order_eq_eq.1 hkey).symm⟩, ?_⟩
    rw [hweight, size_level h hlevel]
  · rintro ⟨⟨label, hlabel, hkey⟩, hweight⟩
    obtain ⟨level, hlevel⟩ := h.exists_level_iff.2 ⟨label, hlabel, Scalar.order_eq_eq.2 hkey.symm⟩
    exact ⟨level, hlevel, by rw [hweight, size_level h hlevel]⟩

theorem mem_levelWeights {x : K × K} :
    x ∈ levelWeights w s ↔ ∃ level, s.level? x.1 = some level ∧ x.2 = w.weight x.1 level.size := by
  rw [levelWeights, List.mem_map]
  constructor
  · rintro ⟨level, hmem, rfl⟩
    exact ⟨level.2, Spectrum.level?_of_mem_toList hmem, rfl⟩
  · rintro ⟨level, hlevel, hweight⟩
    obtain ⟨e, hmem, hkey⟩ := Spectrum.exists_mem_toList hlevel
    cases Scalar.order_eq_eq.1 hkey
    exact ⟨_, hmem, by rw [← hweight]⟩

theorem nodup_levelWeights (w : Weighing K) (s : Spectrum K) :
    ((levelWeights w s).map Prod.fst).Nodup := by
  rw [levelWeights, List.map_map]
  refine List.pairwise_map.2 (s.levels.ascending.imp fun {a b} hlt heq => ?_)
  have hkey : Scalar.order a.1 b.1 = .eq := Scalar.order_eq_eq.2 heq
  rw [hlt] at hkey
  cases hkey

/-- A list of energies with weights has every energy of the labels below `n` once, each with the
weight of as many labels as there are at it. -/
structure Weighs (weights : List (K × K)) (n : Nat) (energy : Nat → K) (w : Weighing K) :
    Prop where
  nodup : (weights.map Prod.fst).Nodup
  mem_iff : ∀ x, x ∈ weights ↔
    (∃ label < n, energy label = x.1) ∧ x.2 = w.weight x.1 (labelsAt n energy x.1)

theorem Weighs.mem_energies {weights : List (K × K)} (h : Weighs weights n energy w) {e : K} :
    e ∈ weights.map Prod.fst ↔ ∃ label < n, energy label = e := by
  rw [List.mem_map]
  constructor
  · rintro ⟨x, hx, rfl⟩
    exact ((h.mem_iff x).1 hx).1
  · intro hlabel
    exact ⟨(e, w.weight e (labelsAt n energy e)), (h.mem_iff _).2 ⟨hlabel, rfl⟩, rfl⟩

theorem weighs_levelWeights (h : s.Files (Set.Iio n) energy) (w : Weighing K) :
    Weighs (levelWeights w s) n energy w where
  nodup := nodup_levelWeights w s
  mem_iff x := by rw [mem_levelWeights, exists_level_weight_iff h]

theorem weighs_build (hexp : ∀ x : K, 0 < Scalar.exp x) (h : s.Files (Set.Iio n) energy)
    (degree : Nat) (strength temperature shift : K) :
    Weighs (build s degree strength temperature shift).validWeights n energy
      (build s degree strength temperature shift).weighing := by
  rw [validWeights_build hexp fun level hlevel =>
    size_level_pos h (Spectrum.level?_of_mem_toList hlevel)]
  exact weighs_levelWeights h _

/-- Patching a table whose valid entries weigh labels at some energies to a spectrum that files the
labels at other energies gives a table whose valid entries weigh them at the new energies, if only
touched energies differ. -/
theorem Intact.weighs_perturb (h : Intact base) (hexp : ∀ x : K, 0 < Scalar.exp x)
    (hbase : Weighs base.validWeights n energy base.weighing) {energy' : Nat → K}
    (hs : s.Files (Set.Iio n) energy') (hnodup : touched.Nodup)
    (huntouched : ∀ e, e ∉ touched → ∀ label, energy' label = e ↔ energy label = e)
    {appended : Nat} (hperturb : base.perturb s touched = .ok (t, appended)) :
    Weighs t.validWeights n energy' base.weighing := by
  have hweights := h.validWeights_perturb hexp (fun e level => size_level_pos hs) hperturb
  have hcount : ∀ e, e ∉ touched → labelsAt n energy' e = labelsAt n energy e := by
    intro e he
    rw [labelsAt, labelsAt, Finset.filter_congr fun label _ => huntouched e he label]
  rw [hweights]
  refine ⟨?_, fun x => ?_⟩
  · rw [List.map_append, List.nodup_append]
    refine ⟨?_, ?_, ?_⟩
    · exact hbase.nodup.sublist (List.filter_sublist.map Prod.fst)
    · exact hnodup.sublist (touchedWeights_sublist base.weighing s touched)
    · intro e he e' he' heq
      obtain ⟨x, hx, rfl⟩ := List.mem_map.1 he
      obtain ⟨x', hx', rfl⟩ := List.mem_map.1 he'
      have hnot : x.1 ∉ touched := by simpa using (List.mem_filter.1 hx).2
      rw [heq] at hnot
      exact hnot (mem_touchedWeights.1 hx').1
  · rw [List.mem_append, List.mem_filter, mem_touchedWeights, hbase.mem_iff]
    by_cases hx : x.1 ∈ touched
    · rw [exists_level_weight_iff hs]
      simp [hx]
    · simp only [hx, not_false_eq_true, decide_true, and_true, false_and, or_false,
        huntouched x.1 hx, hcount x.1 hx]

end Potts.BoltzmannTable
