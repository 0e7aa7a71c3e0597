import Mathlib.Data.List.TakeDrop
import Potts.Proofs.Boltzmann.Weights
import Potts.Proofs.Data.PartitionPoint

/-!
# Where a draw lands

Patches, restoring and switching to the least energy lead from a table that is built to the tables
that are `Reached`. In exact arithmetic with a positive exponential function the bounds of all of
them ascend strictly, whatever is valid. So a scaled random number lands on the entry whose bound is
the first above it, and on the last entry if there is none; and as long as an entry is valid a draw
goes through its trials, which return the energies of valid entries only.
-/

namespace Potts.BoltzmannTable

open Checked

/-! ## Tables that are reached -/

section Reached

variable {F : Type} [Scalar F] {t t' : BoltzmannTable F}

/-- The tables that are reached from a build by patching, restoring and switching to the least
energy, in any order. -/
inductive Reached : BoltzmannTable F → Prop
  | build (s : Spectrum F) (degree : Nat) (strength temperature shift : F) :
      Reached (build s degree strength temperature shift)
  | perturb {t t' : BoltzmannTable F} {s : Spectrum F} {touched : List F} {appended : Nat} :
      Reached t → t.perturb s touched = .ok (t', appended) → Reached t'
  | restore {t t' : BoltzmannTable F} : Reached t → t.restore = .ok t' → Reached t'
  | enterSteepest {t : BoltzmannTable F} : Reached t → Reached t.enterSteepest

/-- The bound before an entry: the one of the entry in front of it, or zero. -/
def boundBefore (t : BoltzmannTable F) (i : Nat) : F :=
  lastBound Scalar.zero (t.entries.toList.take i)

theorem boundBefore_zero (t : BoltzmannTable F) : t.boundBefore 0 = Scalar.zero := rfl

theorem boundBefore_succ {i : Nat} {entry : TableEntry F} (h : t.entries[i]? = some entry) :
    t.boundBefore (i + 1) = entry.bound := by
  rw [boundBefore, List.take_add_one, Array.getElem?_toList, h, lastBound]
  simp

theorem boundBefore_size (t : BoltzmannTable F) : t.boundBefore t.entries.size = t.total := by
  rw [total_eq_lastBound, boundBefore, ← Array.length_toList, List.take_length]

theorem drawWithin_succ {R : Type} [RandomSource R] (ht : 0 < t.entries.size) (tries : Nat)
    (r : R) :
    ∃ entry, t.entries[t.landing ((RandomSource.unit r : F × R).1 * t.span)]? = some entry ∧
      t.drawWithin (tries + 1) r =
        if entry.valid then .ok (some entry.energy, (RandomSource.unit r : F × R).2)
        else t.drawWithin tries (RandomSource.unit r : F × R).2 := by
  have hlt : t.landing ((RandomSource.unit r : F × R).1 * t.span) < t.entries.size := by
    simp only [landing]
    omega
  refine ⟨_, Array.getElem?_eq_getElem hlt, ?_⟩
  rw [drawWithin]
  dsimp only
  rw [Array.getElem?_eq_getElem hlt]

end Reached

/-! ## Ascending bounds -/

variable {K : Type} [ExactScalar K] {t base : BoltzmannTable K} {s : Spectrum K}
  {entries others : List (TableEntry K)} {w : Weighing K} {previous : K} {i j : Nat}

/-- The bounds of a list of entries that stands behind a bound ascend strictly. -/
def AscendsFrom (previous : K) : List (TableEntry K) → Prop
  | [] => True
  | entry :: rest => previous < entry.bound ∧ AscendsFrom entry.bound rest

theorem ascendsFrom_append :
    AscendsFrom previous (entries ++ others) ↔
      AscendsFrom previous entries ∧ AscendsFrom (lastBound previous entries) others := by
  induction entries generalizing previous with
  | nil => simp [AscendsFrom, lastBound]
  | cons entry entries ih =>
    rw [List.cons_append, AscendsFrom, AscendsFrom, ih, lastBound_cons, and_assoc]

theorem AscendsFrom.of_map_bound (h : AscendsFrom previous entries)
    (hbounds : entries.map TableEntry.bound = others.map TableEntry.bound) :
    AscendsFrom previous others := by
  induction entries generalizing previous others with
  | nil =>
    rw [List.map_nil, eq_comm, List.map_eq_nil_iff] at hbounds
    rw [hbounds]
    trivial
  | cons entry entries ih =>
    obtain ⟨other, rest, rfl, hbound, hrest⟩ := List.map_eq_cons_iff.1 hbounds.symm
    obtain ⟨hlt, h⟩ := h
    rw [← hbound] at hlt h
    exact ⟨hlt, ih h hrest.symm⟩

theorem lt_of_entryFor? (hexp : ∀ x : K, 0 < Scalar.exp x) {e : K} {size : Nat}
    {entry : TableEntry K} (h : entryFor? w previous e size = some entry) :
    previous < entry.bound := by
  have hweight := weight_nonneg hexp w e size
  simp only [entryFor?] at h
  split at h
  · cases h
  · rename_i hne
    cases h
    have hne : previous + w.weight e size ≠ previous := fun heq => hne (decide_eq_true heq)
    exact lt_of_le_of_ne (le_add_of_nonneg_right hweight) hne.symm

theorem ascendsFrom_appendedEntries (hexp : ∀ x : K, 0 < Scalar.exp x) (touched : List K) :
    AscendsFrom previous (appendedEntries w s previous touched) := by
  induction touched generalizing previous with
  | nil => trivial
  | cons e touched ih =>
    rw [appendedEntries]
    split
    · exact ih
    · rename_i entry hentry
      obtain ⟨level, -, hentry⟩ := Option.bind_eq_some_iff.1 hentry
      exact ⟨lt_of_entryFor? hexp hentry, ih⟩

/-- The bounds of a table ascend strictly from zero. -/
def Ascends (t : BoltzmannTable K) : Prop := AscendsFrom Scalar.zero t.entries.toList

theorem Ascends.addLevel (h : t.Ascends) (hexp : ∀ x : K, 0 < Scalar.exp x)
    (level : K × LabelSet) : (t.addLevel level).Ascends := by
  rw [BoltzmannTable.addLevel, append?_eq]
  cases hentry : entryFor? t.weighing t.total level.1 level.2.size with
  | none => exact h
  | some entry =>
    have hlt := lt_of_entryFor? hexp hentry
    rw [total_eq_lastBound] at hlt
    rw [Option.map_some, Ascends]
    dsimp only
    rw [Array.toList_push]
    exact ascendsFrom_append.2 ⟨h, hlt, trivial⟩

theorem ascends_build (hexp : ∀ x : K, 0 < Scalar.exp x) (s : Spectrum K) (degree : Nat)
    (strength temperature shift : K) : (build s degree strength temperature shift).Ascends := by
  have key : ∀ (l : List (K × LabelSet)) (t : BoltzmannTable K), t.Ascends →
      (l.foldl BoltzmannTable.addLevel t).Ascends := by
    intro l
    induction l with
    | nil => exact fun t ht => ht
    | cons level l ih => exact fun t ht => ih _ (ht.addLevel hexp level)
  exact key s.toList _ trivial

theorem ascends_patched {invalid : List Nat} {appended : Array (TableEntry K)} :
    (base.patched invalid appended).Ascends ↔
      base.Ascends ∧ AscendsFrom base.total appended.toList := by
  have hbounds : ((marked base.entries invalid).toList).map TableEntry.bound =
      base.entries.toList.map TableEntry.bound := by
    apply List.ext_getElem?
    intro i
    rw [List.getElem?_map, List.getElem?_map, Array.getElem?_toList, Array.getElem?_toList, marked,
      Array.getElem?_mapIdx, Option.map_map]
    rfl
  have hlast : lastBound Scalar.zero (marked base.entries invalid).toList = base.total := by
    rw [lastBound, Array.getLast?_toList, bound_back?_marked, total]
  have hiff : AscendsFrom Scalar.zero (marked base.entries invalid).toList ↔ base.Ascends :=
    ⟨fun h => h.of_map_bound hbounds, fun h => h.of_map_bound hbounds.symm⟩
  rw [Ascends, patched]
  dsimp only
  rw [Array.toList_append, ascendsFrom_append, hiff, hlast]

/-- A table that is reached is a patched one, and its bounds ascend. -/
theorem Reached.exists_patched (h : Reached t) (hexp : ∀ x : K, 0 < Scalar.exp x) :
    ∃ base invalid appended, base.Intact ∧ Positions base invalid ∧
      t = base.patched invalid appended ∧ t.Ascends := by
  induction h with
  | build s degree strength temperature shift =>
    obtain ⟨hintact, -⟩ := intact_build s degree strength temperature shift
    exact ⟨_, [], #[], hintact, positions_nil _, hintact.patched_nil.symm,
      ascends_build hexp s degree strength temperature shift⟩
  | @perturb t t' s touched appended _ hperturb ih =>
    obtain ⟨base, invalid, old, hintact, hpositions, rfl, hascends⟩ := ih
    have heq := hintact.foldlM_perturbOne hpositions old s touched 0
    rw [← BoltzmannTable.perturb, hperturb] at heq
    cases heq
    refine ⟨base, _, _, hintact, hintact.positions_foldl hpositions touched, rfl, ?_⟩
    rw [ascends_patched] at hascends ⊢
    rw [Array.toList_append, ascendsFrom_append]
    refine ⟨hascends.1, hascends.2, ?_⟩
    rw [← total_patched_eq_lastBound base invalid, List.toList_toArray]
    exact ascendsFrom_appendedEntries hexp touched
  | @restore t t' _ hrestore ih =>
    obtain ⟨base, invalid, old, hintact, hpositions, rfl, hascends⟩ := ih
    rw [hintact.restore_patched hpositions] at hrestore
    cases hrestore
    exact ⟨_, [], #[], hintact, positions_nil _, hintact.patched_nil.symm,
      (ascends_patched.1 hascends).1⟩
  | @enterSteepest t _ ih =>
    obtain ⟨base, invalid, old, hintact, hpositions, rfl, hascends⟩ := ih
    exact ⟨base.enterSteepest, invalid, old, hintact.enterSteepest,
      ⟨hpositions.nodup, hpositions.lt⟩, rfl, hascends⟩

/-! ## Drawing -/

theorem Positions.valid_patched_pos {invalid : List Nat} {appended : Array (TableEntry K)}
    (h : Positions base invalid)
    (hvalid : ∃ entry ∈ (base.patched invalid appended).entries, entry.valid = true) :
    0 < (base.patched invalid appended).valid := by
  obtain ⟨entry, hmem, hentry⟩ := hvalid
  have hle := h.length_le
  change 0 < base.entries.size + appended.size - invalid.length
  rcases of_mem_patched hmem hentry with ⟨i, built, hbuilt, hi, -⟩ | hmem
  · -- one position is not among the invalid ones
    have hlt := (h.cons (Array.getElem?_eq_some_iff.1 hbuilt).1 hi).length_le
    rw [List.length_cons] at hlt
    omega
  · have hpos := Array.size_pos_of_mem hmem
    omega

theorem Reached.draw_eq (h : Reached t) (hexp : ∀ x : K, 0 < Scalar.exp x)
    (hvalid : ∃ entry ∈ t.entries, entry.valid = true) {R : Type} [RandomSource R] (r : R) :
    t.draw r = t.drawWithin maxTries r := by
  obtain ⟨base, invalid, appended, -, hpositions, rfl, -⟩ := h.exists_patched hexp
  have hpos := hpositions.valid_patched_pos hvalid
  obtain ⟨entry, hmem, -⟩ := hvalid
  have hsize := Array.size_pos_of_mem hmem
  rw [draw, if_neg (by omega), if_neg (by omega)]

/-! ## Landing -/

theorem Ascends.boundBefore_lt (h : t.Ascends) (hi : i < t.entries.size) :
    t.boundBefore i < t.boundBefore (i + 1) := by
  have hentry : t.entries[i]? = some t.entries[i] := Array.getElem?_eq_getElem hi
  have hsplit : t.entries.toList = t.entries.toList.take i ++ t.entries.toList.drop i :=
    (List.take_append_drop ..).symm
  rw [Ascends, hsplit, ascendsFrom_append, List.drop_eq_getElem_cons (by simpa using hi)] at h
  rw [boundBefore_succ hentry]
  exact h.2.1

theorem Ascends.boundBefore_le (h : t.Ascends) (hij : i ≤ j) (hj : j ≤ t.entries.size) :
    t.boundBefore i ≤ t.boundBefore j := by
  induction j, hij using Nat.le_induction with
  | base => exact le_rfl
  | succ j hij ih => exact (ih (by omega)).trans (h.boundBefore_lt (by omega)).le

theorem Ascends.boundBefore_nonneg (h : t.Ascends) (hi : i ≤ t.entries.size) :
    0 ≤ t.boundBefore i := by
  have hle := h.boundBefore_le (Nat.zero_le i) hi
  rwa [boundBefore_zero, Scalar.zero_eq] at hle

theorem Ascends.partitionPoint_bounds (h : t.Ascends) (scaled : K) :
    let point := partitionPoint (fun j => t.entries[j]?.any fun e => decide (e.bound ≤ scaled))
      t.entries.size
    point ≤ t.entries.size ∧ (∀ j < point, t.boundBefore (j + 1) ≤ scaled) ∧
      ∀ j, point ≤ j → j < t.entries.size → scaled < t.boundBefore (j + 1) := by
  have hcovered : ∀ j < t.entries.size,
      (t.entries[j]?.any fun e => decide (e.bound ≤ scaled)) =
        decide (t.boundBefore (j + 1) ≤ scaled) := by
    intro j hj
    have hentry : t.entries[j]? = some t.entries[j] := Array.getElem?_eq_getElem hj
    rw [hentry, boundBefore_succ hentry, Option.any_some]
  have hleading : Leading (fun j => t.entries[j]?.any fun e => decide (e.bound ≤ scaled))
      t.entries.size := by
    intro j k hjk hk htest
    dsimp only at htest ⊢
    rw [hcovered k hk, decide_eq_true_eq] at htest
    rw [hcovered j (by omega), decide_eq_true_eq]
    exact (h.boundBefore_le (by omega) (by omega)).trans htest
  obtain ⟨hle, hbelow, habove⟩ := partitionPoint_spec hleading
  refine ⟨hle, fun j hj => ?_, fun j hpoint hj => ?_⟩
  · have htest := hbelow j hj
    rwa [hcovered j (by omega), decide_eq_true_eq] at htest
  · have htest := habove j hpoint hj
    rwa [hcovered j hj, decide_eq_false_iff_not, not_le] at htest

/-- A scaled random number lands on an entry when it is at least the bound before it and below its
own; the last entry takes what is above all bounds. -/
theorem Ascends.landing_eq_iff (h : t.Ascends) {scaled : K} (hscaled : 0 ≤ scaled)
    (hi : i < t.entries.size) :
    t.landing scaled = i ↔ t.boundBefore i ≤ scaled ∧
      (scaled < t.boundBefore (i + 1) ∨ i + 1 = t.entries.size) := by
  obtain ⟨hle, hbelow, habove⟩ := h.partitionPoint_bounds scaled
  rw [landing]
  generalize partitionPoint _ t.entries.size = point at hle hbelow habove ⊢
  constructor
  · rintro rfl
    constructor
    · rcases Nat.eq_zero_or_pos (min point (t.entries.size - 1)) with hzero | hpos
      · rw [hzero, boundBefore_zero, Scalar.zero_eq]
        exact hscaled
      · have hbound := hbelow (min point (t.entries.size - 1) - 1) (by omega)
        rwa [Nat.sub_add_cancel hpos] at hbound
    · by_cases hpoint : point < t.entries.size
      · rw [min_eq_left (by omega)]
        exact Or.inl (habove point le_rfl hpoint)
      · exact Or.inr (by omega)
  · rintro ⟨hlow, hhigh⟩
    -- everything before the entry is covered
    have hge : i ≤ point := by
      by_contra hlt
      have hpoint := habove point le_rfl (by omega)
      have hmono := h.boundBefore_le (show point + 1 ≤ i by omega) hi.le
      exact absurd hmono (not_le.2 (hlow.trans_lt hpoint))
    rcases hhigh with hhigh | hlast
    · have hle' : point ≤ i := by
        by_contra hlt
        exact absurd (hbelow i (by omega)) (not_le.2 hhigh)
      omega
    · omega

end Potts.BoltzmannTable
