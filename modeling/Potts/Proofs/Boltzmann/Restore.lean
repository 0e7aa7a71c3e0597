import Mathlib.Data.List.Perm.Basic
import Potts.Proofs.Boltzmann.Draw
import Potts.Random.Cycle

/-!
# Restoring takes everything back

Between its build and a draw a table is perturbed, restored and switched to the least energy, in any
order and any number of times. Whatever is done, the table stays a patch of the one that was built:
some built entries are marked, and valid ones are appended. So its records agree with each other and
restoring gives back what was built, except that the table may have been switched. This holds for
any meaning of the arithmetic.
-/

namespace Potts.BoltzmannTable

open Checked Scalar

variable {F : Type} [Scalar F] {base t : BoltzmannTable F} {invalid : List Nat}
  {appended : Array (TableEntry F)}

/-! ## Changes -/

/-- What is done to a table beside drawing from it. -/
inductive Change (F : Type) [Scalar F] where
  | perturb (s : Spectrum F) (touched : List F)
  | restore
  | enterSteepest

/-- The table after a change. -/
def Change.apply (t : BoltzmannTable F) : Change F → Checked F (BoltzmannTable F)
  | .perturb s touched => Prod.fst <$> t.perturb s touched
  | .restore => t.restore
  | .enterSteepest => .ok t.enterSteepest

/-- The table after changes, one after the other. -/
def changed (t : BoltzmannTable F) (changes : List (Change F)) : Checked F (BoltzmannTable F) :=
  changes.foldlM Change.apply t

/-- Whether a change switches a table to the least energy. -/
def Change.switches : Change F → Bool
  | .enterSteepest => true
  | _ => false

/-- The table with the choice between a draw and the least energy made anew. -/
def withSteepest (t : BoltzmannTable F) (steepest : Bool) : BoltzmannTable F :=
  { t with steepest := steepest }

theorem Intact.withSteepest (h : Intact t) (steepest : Bool) : Intact (t.withSteepest steepest) :=
  ⟨h.builtSize_eq, h.invalidated_eq, h.valid_eq, h.valid, h.slots_iff⟩

theorem Positions.withSteepest (h : Positions base invalid) (steepest : Bool) :
    Positions (base.withSteepest steepest) invalid :=
  ⟨h.nodup, h.lt⟩

/-- The table is a patch of another one that appends valid entries only, but for the choice between
a draw and the least energy. -/
def IsPatch (base t : BoltzmannTable F) : Prop :=
  ∃ invalid appended, Positions base invalid ∧ (∀ entry ∈ appended, entry.valid = true) ∧
    t = (base.withSteepest t.steepest).patched invalid appended

theorem Intact.isPatch (h : Intact base) : IsPatch base base :=
  ⟨[], #[], positions_nil base, fun entry hentry => by simp at hentry, h.patched_nil.symm⟩

theorem IsPatch.yields_apply (h : IsPatch base t) (hbase : Intact base) (change : Change F) :
    Yields (change.apply t) fun t' =>
      IsPatch base t' ∧ t'.steepest = (t.steepest || change.switches) := by
  obtain ⟨invalid, appended, hpositions, hvalid, ht⟩ := h
  have hintact := hbase.withSteepest t.steepest
  have hpositions' := hpositions.withSteepest t.steepest
  cases change with
  | perturb s touched =>
    have hperturb := hintact.foldlM_perturbOne hpositions' appended s touched 0
    rw [← ht, ← BoltzmannTable.perturb] at hperturb
    have happly := congrArg (Prod.fst <$> ·) hperturb
    refine ⟨_, happly, ⟨_, _, ?_, ?_, rfl⟩, (Bool.or_false _).symm⟩
    · have hall := hintact.positions_foldl hpositions' touched
      exact ⟨hall.nodup, hall.lt⟩
    · intro entry hentry
      rcases Array.mem_append.1 hentry with hentry | hentry
      · exact hvalid entry hentry
      · exact (of_mem_appendedEntries (List.mem_toArray.1 hentry)).1
  | restore =>
    have hrestore := hintact.restore_patched hpositions' appended
    rw [← ht] at hrestore
    refine ⟨_, hrestore, ?_, (Bool.or_false _).symm⟩
    exact ⟨[], #[], positions_nil base, fun entry hentry => by simp at hentry,
      hintact.patched_nil.symm⟩
  | enterSteepest =>
    refine ⟨_, rfl, ⟨invalid, appended, hpositions, hvalid, ?_⟩, (Bool.or_true _).symm⟩
    rw [ht]
    rfl

theorem Intact.yields_changed (h : Intact base) (changes : List (Change F)) :
    Yields (base.changed changes) fun t =>
      IsPatch base t ∧ t.steepest = (base.steepest || changes.any Change.switches) := by
  have key : ∀ t, IsPatch base t → Yields (t.changed changes) fun t' =>
      IsPatch base t' ∧ t'.steepest = (t.steepest || changes.any Change.switches) := by
    induction changes with
    | nil => exact fun t ht => yields_ok ⟨ht, by simp⟩
    | cons change changes ih =>
      intro t ht
      rw [changed, List.foldlM_cons]
      refine (ht.yields_apply h change).bind fun t' ht' => ?_
      refine (ih t' ht'.1).mono fun last hlast => ⟨hlast.1, ?_⟩
      rw [hlast.2, ht'.2, List.any_cons, Bool.or_assoc]
  exact key base h.isPatch

/-! ## What a patch records -/

omit [Scalar F] in
theorem getElem?_marked (entries : Array (TableEntry F)) (invalid : List Nat) (i : Nat) :
    (marked entries invalid)[i]? =
      entries[i]?.map fun entry => { entry with valid := decide (i ∉ invalid) } := by
  rw [marked, Array.getElem?_mapIdx]

theorem Positions.countP_marked (h : Positions base invalid) :
    (marked base.entries invalid).countP TableEntry.valid + invalid.length = base.entries.size := by
  have hmap : (marked base.entries invalid).toList.map TableEntry.valid =
      (List.range base.entries.size).map fun i => decide (i ∉ invalid) := by
    apply List.ext_getElem?
    intro i
    rw [List.getElem?_map, Array.getElem?_toList, getElem?_marked, List.getElem?_map,
      Option.map_map]
    by_cases hi : i < base.entries.size
    · rw [Array.getElem?_eq_getElem hi, List.getElem?_range hi]
      rfl
    · rw [Array.getElem?_eq_none (by omega), List.getElem?_eq_none (by simpa using hi)]
      rfl
  have hunmarked : (marked base.entries invalid).countP TableEntry.valid =
      (List.range base.entries.size).countP fun i => decide (i ∉ invalid) := by
    have hcount := congrArg (List.countP id) hmap
    rwa [List.countP_map, List.countP_map, Function.id_comp, Function.id_comp,
      Array.countP_toList] at hcount
  have hperm : ((List.range base.entries.size).filter fun i => decide (i ∈ invalid)).Perm
      invalid := by
    refine (List.perm_ext_iff_of_nodup (List.nodup_range.filter _) h.nodup).2 fun i => ?_
    simp only [List.mem_filter, List.mem_range, decide_eq_true_eq]
    exact and_iff_right_of_imp (h.lt i)
  have hsplit := List.length_eq_countP_add_countP (fun i => decide (i ∈ invalid))
    (l := List.range base.entries.size)
  rw [List.length_range, List.countP_eq_length_filter, hperm.length_eq] at hsplit
  simp only [decide_eq_true_eq] at hsplit
  rw [hunmarked]
  omega

theorem Positions.valid_patched (h : Positions base invalid)
    (happended : ∀ entry ∈ appended, entry.valid = true) :
    (base.patched invalid appended).valid =
      (base.patched invalid appended).entries.countP TableEntry.valid := by
  have hcount := h.countP_marked
  have hall : appended.countP TableEntry.valid = appended.size :=
    Array.countP_eq_size.2 happended
  change base.entries.size + appended.size - invalid.length =
    (marked base.entries invalid ++ appended).countP TableEntry.valid
  rw [Array.countP_append, hall]
  omega

theorem Positions.mem_iff (h : Positions base invalid)
    (happended : ∀ entry ∈ appended, entry.valid = true) {i : Nat} :
    i ∈ invalid ↔ ∃ entry, (base.patched invalid appended).entries[i]? = some entry ∧
      entry.valid = false := by
  change _ ↔ ∃ entry, (marked base.entries invalid ++ appended)[i]? = some entry ∧ _
  constructor
  · intro hi
    have hlt := h.lt i hi
    refine ⟨{ base.entries[i] with valid := decide (i ∉ invalid) }, ?_, by simpa using hi⟩
    rw [Array.getElem?_append_left (by rwa [size_marked]), getElem?_marked,
      Array.getElem?_eq_getElem hlt]
    rfl
  · rintro ⟨entry, hentry, hinvalid⟩
    rw [Array.getElem?_append, size_marked] at hentry
    split at hentry
    · rw [getElem?_marked] at hentry
      obtain ⟨built, -, rfl⟩ := Option.map_eq_some_iff.1 hentry
      simpa using hinvalid
    · have hvalid := happended entry (Array.mem_of_getElem? hentry)
      rw [hvalid] at hinvalid
      cases hinvalid

/-! ## Refusing at once -/

/-- The trials of a draw from a cyclic source move forward in it, the first one already. -/
theorem position_le_of_drawWithin (ht : 0 < t.entries.size) {tries : Nat} {c c' : Cycle}
    {e : Option F} (h : t.drawWithin tries c = .ok (e, c')) :
    c.position + min tries 1 ≤ c'.position := by
  induction tries generalizing c with
  | zero =>
    cases h
    exact Nat.le_refl _
  | succ tries ih =>
    have hunit : ((RandomSource.unit c : F × Cycle).2).position = c.position + 1 := rfl
    obtain ⟨entry, -, htrial⟩ := drawWithin_succ ht tries c
    rw [htrial] at h
    split at h
    · cases h
      omega
    · have hle := ih h
      omega

theorem refuses_iff (hcount : t.valid = t.entries.countP TableEntry.valid) :
    (∀ (R : Type) [RandomSource R] (r : R), t.draw r = .ok (none, r)) ↔
      ∀ entry ∈ t.entries, entry.valid = false := by
  constructor
  · intro hrefuses entry hentry
    rw [← Bool.not_eq_true]
    intro hvalid
    have hpos : 0 < t.valid := by
      rw [hcount, Array.countP_pos_iff]
      exact ⟨entry, hentry, hvalid⟩
    have hsize := Array.size_pos_of_mem hentry
    -- a source that counts shows that a trial is made
    have hdraw := hrefuses Cycle (.ofList [])
    rw [draw, if_neg (by omega), if_neg (by omega)] at hdraw
    have hmoved := position_le_of_drawWithin hsize hdraw
    exact absurd hmoved (by decide)
  · intro hnone R _ r
    have hzero : t.valid = 0 := by
      rw [hcount, Array.countP_eq_zero]
      exact fun entry hentry => by simp [hnone entry hentry]
    rw [draw, if_pos hzero]

/-! ## The run of changes -/

/-- Changes to a table that is built do not fault. At all times the counter is the number of valid
entries, the entries of the build keep their bounds and energies, and the list of invalid positions
has each of them once. Restoring gives back what was built, except that the table takes the least
energy if it did from the start or was switched to it. And a draw refuses at once exactly when no
entry is valid. -/
theorem changed_build (s : Spectrum F) (degree : Nat) (strength temperature shift : F)
    (changes : List (Change F)) :
    let built := build s degree strength temperature shift
    ∃ t, built.changed changes = .ok t ∧
      t.valid = t.entries.countP TableEntry.valid ∧
      t.builtSize = built.builtSize ∧ built.builtSize = built.entries.size ∧
      (∀ (i : Nat) (entry : TableEntry F), built.entries[i]? = some entry →
        ∃ valid, t.entries[i]? = some { entry with valid := valid }) ∧
      t.invalidated.Nodup ∧
      (∀ i : Nat, i ∈ t.invalidated ↔
        ∃ entry, t.entries[i]? = some entry ∧ entry.valid = false) ∧
      t.restore = .ok { built with steepest := t.steepest } ∧
      t.steepest = (built.steepest || changes.any Change.switches) ∧
      ((∀ (R : Type) [RandomSource R] (r : R), t.draw r = .ok (none, r)) ↔
        ∀ entry ∈ t.entries, entry.valid = false) := by
  intro built
  have hbuilt : Intact built := (intact_build s degree strength temperature shift).1
  obtain ⟨t, ht, ⟨invalid, appended, hpositions, happended, heq⟩, hsteepest⟩ :=
    hbuilt.yields_changed changes
  have hpositions' := hpositions.withSteepest t.steepest
  have hcount : t.valid = t.entries.countP TableEntry.valid := by
    rw [heq]
    exact hpositions'.valid_patched happended
  refine ⟨t, ht, hcount, ?_, hbuilt.builtSize_eq, fun i entry hentry => ?_, ?_, fun i => ?_, ?_,
    hsteepest, refuses_iff hcount⟩
  · rw [heq]
    rfl
  · have hlt := (Array.getElem?_eq_some_iff.1 hentry).1
    refine ⟨decide (i ∉ invalid), ?_⟩
    rw [heq]
    change (marked built.entries invalid ++ appended)[i]? = _
    rw [Array.getElem?_append_left (by rwa [size_marked]), getElem?_marked, hentry]
    rfl
  · rw [heq]
    exact hpositions.nodup
  · have hiff := hpositions'.mem_iff happended (i := i)
    rw [heq]
    exact hiff
  · have hrestore := (hbuilt.withSteepest t.steepest).restore_patched hpositions' appended
    rwa [← heq] at hrestore

end Potts.BoltzmannTable
