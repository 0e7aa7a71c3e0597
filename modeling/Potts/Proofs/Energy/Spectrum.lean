import Mathlib.Order.BooleanAlgebra.Set
import Mathlib.Logic.Function.Basic
import Mathlib.Order.Interval.Set.Defs
import Potts.Energy.Spectrum
import Potts.Proofs.Data.SortedMap
import Potts.Proofs.Failure.Checked

/-!
# What a spectrum files

A spectrum is read through `holds`, which says of an energy and a label whether the label is filed
there; energies that are filed under the same key are not told apart. `Files s labels energy` says
that the spectrum files exactly these labels, each at its energy, and has no level without labels.
Inserting, removing and relocating a label change the set and the energies as one expects, and
removing a label faults for no label that is filed where it is looked for.
-/

namespace Potts.Spectrum

open Checked Scalar

variable {F : Type} [Scalar F] {s s' : Spectrum F} {labels : Set Nat} {energy energy' : Nat → F}
  {e e' : F} {label : Nat}

/-! ## Levels -/

theorem order_self (e : F) : order e e = .eq := Std.ReflCmp.compare_self

theorem order_eq_symm (h : order e e' = .eq) : order e' e = .eq := Std.OrientedCmp.eq_symm h

theorem order_eq_trans {e'' : F} (h : order e e' = .eq) (h' : order e' e'' = .eq) :
    order e e'' = .eq := Std.TransCmp.eq_trans h h'

theorem level?_congr (h : order e e' = .eq) : s.level? e = s.level? e' := SortedMap.get?_congr h

theorem holds_iff :
    s.holds e label = true ↔ ∃ level, s.level? e = some level ∧ level.contains label = true := by
  rw [holds, Option.any_eq_true]

theorem holds_congr (h : order e e' = .eq) : s.holds e label = s.holds e' label := by
  rw [holds, holds, level?_congr h]

/-- No level is without labels. -/
def Occupied (s : Spectrum F) : Prop :=
  ∀ e level, s.level? e = some level → ∃ label, level.contains label = true

theorem Occupied.exists_level_iff (h : Occupied s) :
    (∃ level, s.level? e = some level) ↔ ∃ label, s.holds e label = true := by
  constructor
  · rintro ⟨level, hlevel⟩
    obtain ⟨label, hlabel⟩ := h e level hlevel
    exact ⟨label, holds_iff.2 ⟨level, hlevel, hlabel⟩⟩
  · rintro ⟨label, hlabel⟩
    obtain ⟨level, hlevel, -⟩ := holds_iff.1 hlabel
    exact ⟨level, hlevel⟩

theorem level?_of_mem_toList {level : F × LabelSet} (h : level ∈ s.toList) :
    s.level? level.1 = some level.2 := SortedMap.get?_of_mem_self h

theorem exists_mem_toList {level : LabelSet} (h : s.level? e = some level) :
    ∃ e', (e', level) ∈ s.toList ∧ order e e' = .eq := SortedMap.exists_mem_of_get? h

theorem exists_minimum {level : LabelSet} (h : s.level? e = some level) :
    ∃ least, s.minimum? = some least ∧ least ∈ s.toList := by
  obtain ⟨e', hmem, -⟩ := exists_mem_toList h
  cases hs : s.toList with
  | nil => rw [hs] at hmem; cases hmem
  | cons least rest => exact ⟨least, by rw [minimum?, ← toList, hs, List.head?_cons], by simp⟩

theorem isLE_minimum {least : F × LabelSet} {level : LabelSet} (hleast : s.minimum? = some least)
    (h : s.level? e = some level) : (order least.1 e).isLE = true := by
  obtain ⟨e', hmem, hkey⟩ := exists_mem_toList h
  have hascending := s.levels.ascending
  rw [toList] at hmem
  cases hentries : s.levels.entries with
  | nil =>
    rw [hentries] at hmem
    cases hmem
  | cons first rest =>
    rw [minimum?, hentries] at hleast
    cases hleast
    rw [hentries] at hmem hascending
    rcases List.mem_cons.1 hmem with rfl | hmem
    · rw [order_eq_symm hkey]
      rfl
    · have hlt := (List.pairwise_cons.1 hascending).1 _ hmem
      rw [Std.TransCmp.lt_of_lt_of_eq hlt (order_eq_symm hkey)]
      rfl

theorem order_minimum (h : ∀ e, s.level? e = s'.level? e) {least least' : F × LabelSet}
    (hleast : s.minimum? = some least) (hleast' : s'.minimum? = some least') :
    order least.1 least'.1 = .eq := by
  have hlevel : s.level? least.1 = some least.2 :=
    level?_of_mem_toList (List.mem_of_mem_head? hleast)
  have hlevel' : s'.level? least'.1 = some least'.2 :=
    level?_of_mem_toList (List.mem_of_mem_head? hleast')
  rw [h] at hlevel
  rw [← h] at hlevel'
  exact Std.OrientedCmp.isLE_antisymm (isLE_minimum hleast hlevel')
    (isLE_minimum hleast' hlevel)

/-! ## Changes -/

theorem level?_insert (s : Spectrum F) (e : F) (label : Nat) (e' : F) :
    (s.insert e label).level? e' =
      if order e' e = .eq then some (SortedSet.add ((s.level? e).getD .empty) label)
      else s.level? e' :=
  SortedMap.get?_alter s.levels e e' _

theorem holds_insert (s : Spectrum F) (e : F) (label : Nat) (e' : F) (label' : Nat) :
    (s.insert e label).holds e' label' = true ↔
      (order e' e = .eq ∧ label' = label) ∨ s.holds e' label' = true := by
  rw [holds, level?_insert]
  by_cases h : order e' e = .eq
  · rw [if_pos h, Option.any_some, SortedSet.contains_add, holds_congr h, holds]
    cases s.level? e <;> simp [h]
  · rw [if_neg h, holds]
    simp [h]

theorem Occupied.insert (h : Occupied s) (e : F) (label : Nat) : Occupied (s.insert e label) := by
  intro e' level hlevel
  rw [level?_insert] at hlevel
  split at hlevel
  · cases hlevel
    exact ⟨label, by simp [SortedSet.contains_add]⟩
  · exact h e' level hlevel

theorem yields_remove (h : s.holds e label = true) :
    Yields (s.remove e label) fun s' =>
      (∀ e' label', s'.holds e' label' = true ↔
        s.holds e' label' = true ∧ ¬(order e' e = .eq ∧ label' = label)) ∧
      (Occupied s → Occupied s') := by
  rw [remove, if_pos h]
  obtain ⟨level, hlevel, -⟩ := holds_iff.1 h
  -- the level afterwards, at every energy
  have hafter : ∀ e', (⟨s.levels.alter e fun labels =>
        let rest := SortedSet.remove (labels.getD .empty) label
        if rest.isEmpty then none else some rest⟩ : Spectrum F).level? e' =
      if order e' e = .eq then
        if (level.remove label).isEmpty then none else some (level.remove label)
      else s.level? e' := by
    intro e'
    have hget : s.levels.get? e = some level := hlevel
    rw [level?, SortedMap.get?_alter, hget]
    rfl
  refine yields_ok ⟨fun e' label' => ?_, fun hocc e' level' hlevel' => ?_⟩
  · rw [holds, hafter]
    by_cases hkey : order e' e = .eq
    · rw [if_pos hkey, holds_congr hkey, holds, hlevel, Option.any_some]
      have hrest : (if (level.remove label).isEmpty then none else some (level.remove label)).any
          (fun l => l.contains label') = (level.remove label).contains label' := by
        by_cases hempty : (level.remove label).isEmpty = true
        · rw [if_pos hempty, Option.any_none, (SortedSet.isEmpty_iff _).1 hempty]
        · rw [if_neg hempty, Option.any_some]
      rw [hrest, SortedSet.contains_remove]
      simp [hkey, and_comm]
    · rw [if_neg hkey, ← holds]
      simp [hkey]
  · rw [hafter] at hlevel'
    split at hlevel'
    · split at hlevel'
      · cases hlevel'
      · rename_i hempty
        cases hlevel'
        rw [SortedSet.isEmpty_iff] at hempty
        push Not at hempty
        obtain ⟨label', hlabel'⟩ := hempty
        exact ⟨label', by simpa using hlabel'⟩
    · exact hocc e' level' hlevel'

/-! ## Filing -/

/-- The spectrum files these labels and no others, each at its energy, and has no empty level. -/
structure Files (s : Spectrum F) (labels : Set Nat) (energy : Nat → F) : Prop where
  holds_iff : ∀ e label, s.holds e label = true ↔ label ∈ labels ∧ order e (energy label) = .eq
  occupied : Occupied s

theorem files_empty (energy : Nat → F) : Files (empty : Spectrum F) ∅ energy where
  holds_iff e label := by
    have h : (empty : Spectrum F).holds e label = false := rfl
    simp [h]
  occupied e level h := by cases h

theorem Files.congr (h : Files s labels energy)
    (henergy : ∀ label ∈ labels, order (energy label) (energy' label) = .eq) :
    Files s labels energy' where
  holds_iff e label := by
    rw [h.holds_iff]
    refine and_congr_right fun hlabel => ⟨fun he => ?_, fun he => ?_⟩
    · exact order_eq_trans he (henergy label hlabel)
    · exact order_eq_trans he (order_eq_symm (henergy label hlabel))
  occupied := h.occupied

theorem Files.insert (h : Files s labels energy) (hlabel : label ∉ labels) (e : F) :
    Files (s.insert e label) (Insert.insert label labels) (Function.update energy label e) where
  holds_iff e' label' := by
    rw [holds_insert, h.holds_iff, Set.mem_insert_iff]
    by_cases heq : label' = label
    · subst heq
      simp [hlabel]
    · simp [heq]
  occupied := h.occupied.insert e label

theorem Files.yields_remove (h : Files s labels energy) (hlabel : label ∈ labels)
    (he : order e (energy label) = .eq) :
    Yields (s.remove e label) (Files · (labels \ {label}) energy) := by
  have hholds : s.holds e label = true := (h.holds_iff e label).2 ⟨hlabel, he⟩
  refine (Spectrum.yields_remove hholds).mono fun s' hs' => ⟨fun e' label' => ?_, hs'.2 h.occupied⟩
  rw [hs'.1, h.holds_iff, Set.mem_sdiff, Set.mem_singleton_iff]
  constructor
  · rintro ⟨⟨hmem, hkey⟩, hnot⟩
    refine ⟨⟨hmem, fun heq => hnot ⟨?_, heq⟩⟩, hkey⟩
    subst heq
    exact order_eq_trans hkey (order_eq_symm he)
  · rintro ⟨⟨hmem, hne⟩, hkey⟩
    exact ⟨⟨hmem, hkey⟩, fun hnot => hne hnot.2⟩

theorem Files.yields_relocate (h : Files s labels energy) (hlabel : label ∈ labels)
    (he : order e (energy label) = .eq) (e' : F) :
    Yields (s.relocate label e e') (Files · labels (Function.update energy label e')) := by
  refine (h.yields_remove hlabel he).bind fun s' hs' => yields_pure ?_
  have hnot : label ∉ labels \ {label} := by simp
  have hinsert := hs'.insert hnot e'
  rwa [Set.insert_sdiff_singleton, Set.insert_eq_of_mem hlabel] at hinsert

/-- The labels below a number are filed one after the other, in ascending order. -/
theorem ofLabels_eq_foldl (n : Nat) (energy : Nat → F) :
    ofLabels n energy =
      (List.range n).foldl (fun s label => s.insert (energy label) label) empty := by
  have hempty : (empty : Spectrum F) = ⟨SortedMap.empty.mapValues SortedSet.ofList⟩ := rfl
  rw [ofLabels, groups, hempty]
  generalize (SortedMap.empty : SortedMap F (List Nat) order) = levels
  induction List.range n generalizing levels with
  | nil => rfl
  | cons label l ih =>
    rw [List.foldl_cons, List.foldl_cons, ih]
    refine congrArg (fun levels => l.foldl _ (Spectrum.mk levels))
      (SortedMap.mapValues_alter levels (energy label) fun labels => ?_)
    rw [Option.map_some, SortedSet.ofList_cons]
    cases labels <;> rfl

theorem files_ofLabels (n : Nat) (energy : Nat → F) :
    Files (ofLabels n energy) (Set.Iio n) energy := by
  rw [ofLabels_eq_foldl]
  induction n with
  | zero =>
    have hzero : Set.Iio 0 = (∅ : Set Nat) :=
      Set.eq_empty_of_forall_notMem fun label => Nat.not_lt_zero label
    rw [hzero]
    exact files_empty energy
  | succ n ih =>
    have hnot : n ∉ Set.Iio n := by simp
    have h := ih.insert hnot (energy n)
    have hset : Insert.insert n (Set.Iio n) = Set.Iio (n + 1) := by
      ext label
      simp only [Set.mem_insert_iff, Set.mem_Iio]
      omega
    rw [Function.update_eq_self, hset] at h
    rw [List.range_succ, List.foldl_append]
    exact h

/-! ## Reading a spectrum that files labels -/

theorem Files.exists_level (h : Files s labels energy) (hlabel : label ∈ labels)
    (he : order e (energy label) = .eq) :
    ∃ level, s.level? e = some level ∧ level.contains label = true :=
  Spectrum.holds_iff.1 ((h.holds_iff e label).2 ⟨hlabel, he⟩)

theorem Files.mem_of_level (h : Files s labels energy) {level : LabelSet}
    (hlevel : s.level? e = some level) (hlabel : level.contains label = true) :
    label ∈ labels ∧ order e (energy label) = .eq :=
  (h.holds_iff e label).1 (Spectrum.holds_iff.2 ⟨level, hlevel, hlabel⟩)

theorem Files.exists_level_iff (h : Files s labels energy) :
    (∃ level, s.level? e = some level) ↔
      ∃ label ∈ labels, order e (energy label) = .eq := by
  rw [h.occupied.exists_level_iff]
  exact exists_congr fun label => h.holds_iff e label

theorem Files.level?_eq (h : s.Files labels energy) (h' : s'.Files labels energy) (e : F) :
    s.level? e = s'.level? e := by
  have key : ∀ {s s' : Spectrum F}, s.Files labels energy → s'.Files labels energy →
      ∀ level, s.level? e = some level → s'.level? e = some level := by
    intro s s' h h' level hlevel
    obtain ⟨level', hlevel'⟩ := h'.exists_level_iff.2 (h.exists_level_iff.1 ⟨level, hlevel⟩)
    rw [hlevel']
    refine congrArg some (SortedSet.eq_of_contains fun label => ?_)
    have hholds : s'.holds e label = s.holds e label := by
      rw [Bool.eq_iff_iff, h.holds_iff, h'.holds_iff]
    rwa [holds, holds, hlevel, hlevel', Option.any_some, Option.any_some] at hholds
  exact Option.ext fun level => ⟨key h h' level, key h' h level⟩

/-- Every label is in exactly one level, whose energy is the label's. -/
theorem Files.existsUnique_level (h : Files s labels energy) (hlabel : label ∈ labels) :
    ∃ level ∈ s.toList, order level.1 (energy label) = .eq ∧ level.2.contains label = true ∧
      ∀ other ∈ s.toList, other.2.contains label = true → other = level := by
  obtain ⟨labelSet, hlevel, hcontains⟩ := h.exists_level hlabel (order_self _)
  obtain ⟨e, hmem, hkey⟩ := exists_mem_toList hlevel
  refine ⟨(e, labelSet), hmem, order_eq_symm hkey, hcontains, fun other hother hin => ?_⟩
  have hkey' := (h.mem_of_level (level?_of_mem_toList hother) hin).2
  exact SortedMap.eq_of_mem_of_mem hother hmem (order_eq_trans hkey' hkey)

theorem Files.of_mem_toList (h : Files s labels energy) {level : F × LabelSet}
    (hmem : level ∈ s.toList) :
    (∃ label, level.2.contains label = true) ∧
      ∀ label, level.2.contains label = true → label ∈ labels := by
  have hlevel := level?_of_mem_toList hmem
  exact ⟨h.occupied _ _ hlevel, fun label hlabel => (h.mem_of_level hlevel hlabel).1⟩

end Potts.Spectrum
