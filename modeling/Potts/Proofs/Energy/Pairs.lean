import Mathlib.Data.Finset.Card
import Mathlib.Data.Finset.Image
import Mathlib.Data.List.Nodup
import Mathlib.Data.List.Perm.Basic
import Mathlib.Data.List.Sort
import Potts.Proofs.Energy.Spectrum
import Potts.Proofs.Failure.InPlace
import Potts.Proofs.Scalar.Filing

/-!
# Spectra are sets of pairs

A spectrum stands for a finite set of pairs, each of the key that an energy is filed under and a
label. Inserting, removing and relocating change this set by single pairs, and they fault exactly
when a pair is to go that is not there. The levels are no more than the set: they are its fibres
over the keys, in ascending order. So labels that have been relocated can be relocated back in any
order, whatever levels have gone and come again in between, as each of them moves a pair of its own.
On binary floating point the keys are the numbers up to the tests, and one more that is the largest.
-/

namespace Potts

/-! ## Keys -/

namespace Scalar

variable {F : Type} [Scalar F] {a b : F}

/-- Energies that are filed under the same key. -/
def keySetoid (F : Type) [Scalar F] : Setoid F where
  r a b := order a b = .eq
  iseqv := ⟨fun _ => Std.ReflCmp.compare_self, Std.OrientedCmp.eq_symm, Std.TransCmp.eq_trans⟩

/-- What energies are filed under. -/
def Key (F : Type) [Scalar F] : Type := Quotient (keySetoid F)

def key (e : F) : Key F := Quotient.mk (keySetoid F) e

theorem key_eq_iff : key a = key b ↔ order a b = .eq := Quotient.eq

theorem exists_key (k : Key F) : ∃ e, key e = k := Quotient.exists_rep k

instance : DecidableEq (Key F) :=
  @Quotient.decidableEq F (keySetoid F) fun a b => inferInstanceAs (Decidable (order a b = .eq))

theorem lt_congr {a' b' : F} (ha : order a a' = .eq) (hb : order b b' = .eq)
    (h : order a b = .lt) : order a' b' = .lt :=
  Std.TransCmp.lt_of_eq_of_lt (Std.OrientedCmp.eq_symm ha) (Std.TransCmp.lt_of_lt_of_eq h hb)

/-- Keys are in the order in which energies are filed. -/
instance : LT (Key F) where
  lt := Quotient.lift₂ (fun a b => order a b = .lt) fun _ _ _ _ ha hb =>
    propext ⟨lt_congr ha hb, lt_congr (Std.OrientedCmp.eq_symm ha) (Std.OrientedCmp.eq_symm hb)⟩

theorem key_lt_iff : key a < key b ↔ order a b = .lt := Iff.rfl

theorem key_lt_irrefl (k : Key F) : ¬k < k := by
  obtain ⟨e, rfl⟩ := exists_key k
  rw [key_lt_iff, Spectrum.order_self]
  decide

theorem key_lt_asymm {k l : Key F} (h : k < l) : ¬l < k := by
  obtain ⟨a, rfl⟩ := exists_key k
  obtain ⟨b, rfl⟩ := exists_key l
  rw [key_lt_iff] at h ⊢
  rw [Std.OrientedCmp.gt_of_lt h]
  decide

end Scalar

namespace Spectrum

open Checked InPlace Scalar

variable {F : Type} [Scalar F] {s s' : Spectrum F} {e : F} {k : Key F} {label : Nat}
  {level : LabelSet}

/-! ## Levels by key -/

/-- The levels with the keys that they are filed under, ascending. -/
def keyed (s : Spectrum F) : List (Key F × LabelSet) :=
  s.toList.map fun level => (key level.1, level.2)

/-- The pairs of keys and labels that a spectrum files. -/
def pairs (s : Spectrum F) : Finset (Key F × Nat) :=
  (s.keyed.flatMap fun level => level.2.toList.map (level.1, ·)).toFinset

theorem pairwise_keyed (s : Spectrum F) : s.keyed.Pairwise fun a b => a.1 < b.1 := by
  rw [keyed, List.pairwise_map]
  exact s.levels.ascending

theorem mem_keyed : (key e, level) ∈ s.keyed ↔ s.level? e = some level := by
  rw [keyed, List.mem_map]
  constructor
  · rintro ⟨⟨e', level'⟩, hmem, heq⟩
    obtain ⟨hkey, rfl⟩ := Prod.mk.inj heq
    rw [← level?_congr (key_eq_iff.1 hkey)]
    exact level?_of_mem_toList hmem
  · intro hlevel
    obtain ⟨e', hmem, hkey⟩ := exists_mem_toList hlevel
    exact ⟨(e', level), hmem, by rw [key_eq_iff.2 (order_eq_symm hkey)]⟩

theorem mem_pairs_iff_keyed :
    (k, label) ∈ s.pairs ↔ ∃ level, (k, level) ∈ s.keyed ∧ level.contains label = true := by
  rw [pairs, List.mem_toFinset, List.mem_flatMap]
  constructor
  · rintro ⟨⟨k', level⟩, hmem, hlabel⟩
    obtain ⟨label', hlabel', heq⟩ := List.mem_map.1 hlabel
    obtain ⟨rfl, rfl⟩ := Prod.mk.inj heq
    exact ⟨level, hmem, (SortedSet.mem_toList level).1 hlabel'⟩
  · rintro ⟨level, hmem, hlabel⟩
    exact ⟨(k, level), hmem, List.mem_map_of_mem ((SortedSet.mem_toList level).2 hlabel)⟩

theorem mem_pairs : (key e, label) ∈ s.pairs ↔ s.holds e label = true := by
  rw [mem_pairs_iff_keyed, holds_iff]
  exact exists_congr fun level => and_congr_left fun _ => mem_keyed

theorem Occupied.mem_keyed_iff (h : Occupied s) :
    (k, level) ∈ s.keyed ↔ (∃ label, (k, label) ∈ s.pairs) ∧
      ∀ label, level.contains label = true ↔ (k, label) ∈ s.pairs := by
  obtain ⟨e, rfl⟩ := exists_key k
  have hlevel : ∀ {level}, s.level? e = some level →
      ∀ label, level.contains label = true ↔ (key e, label) ∈ s.pairs := by
    intro level hlevel label
    rw [mem_pairs, holds, hlevel, Option.any_some]
  rw [mem_keyed]
  constructor
  · intro hget
    obtain ⟨label, hlabel⟩ := h e level hget
    exact ⟨⟨label, (hlevel hget label).1 hlabel⟩, hlevel hget⟩
  · rintro ⟨⟨label, hlabel⟩, hfibre⟩
    obtain ⟨level', hget, -⟩ := holds_iff.1 (mem_pairs.1 hlabel)
    rw [hget]
    refine congrArg some (SortedSet.eq_of_contains fun label => ?_)
    rw [Bool.eq_iff_iff, hlevel hget, hfibre]

/-- A spectrum is known by its pairs, but for what its energies are written like. -/
theorem Occupied.keyed_eq (h : Occupied s) (h' : Occupied s') (hpairs : s.pairs = s'.pairs) :
    s.keyed = s'.keyed := by
  have : Std.Irrefl fun a b : Key F × LabelSet => a.1 < b.1 := ⟨fun a => key_lt_irrefl a.1⟩
  have : Std.Antisymm fun a b : Key F × LabelSet => a.1 < b.1 :=
    ⟨fun _ _ hab hba => absurd hba (key_lt_asymm hab)⟩
  refine s.pairwise_keyed.eq_of_mem_iff s'.pairwise_keyed fun level => ?_
  rw [h.mem_keyed_iff, h'.mem_keyed_iff, hpairs]

/-! ## Counting -/

theorem nodup_keys_keyed (s : Spectrum F) : (s.keyed.map Prod.fst).Nodup := by
  rw [List.Nodup, List.pairwise_map]
  refine s.pairwise_keyed.imp fun {a b} hlt heq => ?_
  rw [heq] at hlt
  exact key_lt_irrefl _ hlt

theorem Occupied.size_eq (h : Occupied s) : s.size = (s.pairs.image Prod.fst).card := by
  have himage : s.pairs.image Prod.fst = (s.keyed.map Prod.fst).toFinset := by
    ext k
    rw [Finset.mem_image, List.mem_toFinset, List.mem_map]
    constructor
    · rintro ⟨⟨k, label⟩, hpair, rfl⟩
      obtain ⟨level, hmem, -⟩ := mem_pairs_iff_keyed.1 hpair
      exact ⟨(k, level), hmem, rfl⟩
    · rintro ⟨⟨k, level⟩, hmem, rfl⟩
      obtain ⟨⟨label, hpair⟩, -⟩ := h.mem_keyed_iff.1 hmem
      exact ⟨(k, label), hpair, rfl⟩
  rw [himage, List.toFinset_card_of_nodup s.nodup_keys_keyed, List.length_map, keyed,
    List.length_map]
  rfl

theorem labelCount_eq (s : Spectrum F) : s.labelCount = s.pairs.card := by
  have hnodup : (s.keyed.flatMap fun level => level.2.toList.map (level.1, ·)).Nodup := by
    refine List.nodup_flatMap.2 ⟨fun level _ => ?_, s.pairwise_keyed.imp fun {a b} hlt => ?_⟩
    · exact (SortedSet.nodup_toList level.2).map (Prod.mk_right_injective level.1)
    · intro pair ha hb
      obtain ⟨_, -, rfl⟩ := List.mem_map.1 ha
      obtain ⟨_, -, heq⟩ := List.mem_map.1 hb
      rw [(Prod.mk.inj heq).1] at hlt
      exact key_lt_irrefl _ hlt
  rw [pairs, List.toFinset_card_of_nodup hnodup, List.length_flatMap, labelCount, SortedMap.values,
    keyed, toList, List.map_map]
  induction s.levels.entries with
  | nil => rfl
  | cons level rest ih =>
    rw [List.map_cons, List.foldr_cons, ih, List.map_cons, List.sum_cons, Function.comp_apply,
      List.length_map, SortedSet.size_eq_length]

/-! ## Changes -/

/-- What is done to a spectrum. -/
inductive Change (F : Type) where
  | insert (energy : F) (label : Nat)
  | remove (energy : F) (label : Nat)
  | relocate (label : Nat) (source target : F)

/-- The spectrum after a change. -/
def Change.apply (s : Spectrum F) : Change F → Checked F (Spectrum F)
  | .insert energy label => .ok (s.insert energy label)
  | .remove energy label => s.remove energy label
  | .relocate label source target => s.relocate label source target

/-- The spectrum after changes, one after the other. -/
def changed (s : Spectrum F) (changes : List (Change F)) : Checked F (Spectrum F) :=
  changes.foldlM Change.apply s

/-- The pairs after a change: a pair can go only if it is there. -/
def Change.applyTo (pairs : Finset (Key F × Nat)) : Change F → Checked F (Finset (Key F × Nat))
  | .insert energy label => .ok (Insert.insert (key energy, label) pairs)
  | .remove energy label =>
    if (key energy, label) ∈ pairs then .ok (pairs.erase (key energy, label))
    else .error (.unindexed label energy)
  | .relocate label source target =>
    if (key source, label) ∈ pairs then
      .ok (Insert.insert (key target, label) (pairs.erase (key source, label)))
    else .error (.unindexed label source)

/-- The pairs after changes, one after the other. -/
def changedPairs (pairs : Finset (Key F × Nat)) (changes : List (Change F)) :
    Checked F (Finset (Key F × Nat)) :=
  changes.foldlM Change.applyTo pairs

theorem pairs_insert (s : Spectrum F) (e : F) (label : Nat) :
    (s.insert e label).pairs = Insert.insert (key e, label) s.pairs := by
  ext ⟨k, label'⟩
  obtain ⟨e', rfl⟩ := exists_key k
  rw [Finset.mem_insert, mem_pairs, mem_pairs, holds_insert, Prod.mk.injEq, key_eq_iff]

theorem yields_remove_pairs (h : (key e, label) ∈ s.pairs) :
    Yields (s.remove e label) fun s' =>
      s'.pairs = s.pairs.erase (key e, label) ∧ (Occupied s → Occupied s') := by
  refine (yields_remove (mem_pairs.1 h)).mono fun s' hs' => ⟨?_, hs'.2⟩
  ext ⟨k, label'⟩
  obtain ⟨e', rfl⟩ := exists_key k
  rw [Finset.mem_erase, mem_pairs, mem_pairs, hs'.1, ne_eq, Prod.mk.injEq, key_eq_iff, and_comm]

theorem yields_relocate_pairs (h : (key e, label) ∈ s.pairs) (target : F) :
    Yields (s.relocate label e target) fun s' =>
      s'.pairs = Insert.insert (key target, label) (s.pairs.erase (key e, label)) ∧
        (Occupied s → Occupied s') := by
  refine (yields_remove_pairs h).bind fun s' hs' => yields_pure ⟨?_, fun hocc => ?_⟩
  · rw [pairs_insert, hs'.1]
  · exact (hs'.2 hocc).insert target label

theorem remove_eq_error_iff {fault : Fault F} :
    s.remove e label = .error fault ↔ (key e, label) ∉ s.pairs ∧ fault = .unindexed label e := by
  rw [remove, mem_pairs]
  by_cases h : s.holds e label = true
  · rw [if_pos h]
    exact iff_of_false (ok_ne_error _ fault) fun hnot => hnot.1 h
  · rw [if_neg h, Except.error.injEq, eq_comm]
    exact (and_iff_right h).symm

theorem relocate_eq_error_iff {target : F} {fault : Fault F} :
    s.relocate label e target = .error fault ↔
      (key e, label) ∉ s.pairs ∧ fault = .unindexed label e := by
  rw [relocate, bind_pure_eq_error_iff, remove_eq_error_iff]

theorem Occupied.matches_apply (h : Occupied s) (change : Change F) :
    Matches (fun s pairs => Occupied s ∧ s.pairs = pairs) (change.apply s)
      (change.applyTo s.pairs) := by
  cases change with
  | insert e label => exact .ok ⟨h.insert e label, pairs_insert s e label⟩
  | remove e label =>
    rw [Change.apply, Change.applyTo]
    by_cases hpair : (key e, label) ∈ s.pairs
    · obtain ⟨s', hs', hpairs, hocc⟩ := yields_remove_pairs hpair
      rw [hs', if_pos hpair]
      exact .ok ⟨hocc h, hpairs⟩
    · rw [remove_eq_error_iff.2 ⟨hpair, rfl⟩, if_neg hpair]
      exact .error _
  | relocate label source target =>
    rw [Change.apply, Change.applyTo]
    by_cases hpair : (key source, label) ∈ s.pairs
    · obtain ⟨s', hs', hpairs, hocc⟩ := yields_relocate_pairs hpair target
      rw [hs', if_pos hpair]
      exact .ok ⟨hocc h, hpairs⟩
    · rw [relocate_eq_error_iff.2 ⟨hpair, rfl⟩, if_neg hpair]
      exact .error _

/-! ## Step by step -/

/-- Take `label` out of its level, and then the level away if it was the last one. -/
def removeInPlace (energy : F) (label : Nat) : InPlace F (Spectrum F) Unit := do
  let s ← get
  let level ← check (expect (.unindexed label energy)
    ((s.level? energy).filter fun level => level.contains label))
  modify fun s => ⟨s.levels.insert energy (level.remove label)⟩
  if (level.remove label).isEmpty then modify fun s => ⟨s.levels.erase energy⟩

/-- A change that is made in place. -/
def Change.inPlace : Change F → InPlace F (Spectrum F) Unit
  | .insert energy label => modify fun s => s.insert energy label
  | .remove energy label => removeInPlace energy label
  | .relocate label source target => do
    removeInPlace source label
    modify fun s => s.insert target label

theorem remove_eq (hlevel : s.level? e = some level) (hlabel : level.contains label = true) :
    s.remove e label = .ok ⟨if (level.remove label).isEmpty then s.levels.erase e
      else s.levels.insert e (level.remove label)⟩ := by
  have hget : s.levels.get? e = some level := hlevel
  rw [remove, if_pos (holds_iff.2 ⟨level, hlevel, hlabel⟩)]
  refine congrArg (fun levels => (.ok ⟨levels⟩ : Checked F (Spectrum F))) ?_
  split
  · rename_i hempty
    exact SortedMap.alter_congr (by rw [hget]; exact if_pos hempty)
  · rename_i hempty
    exact SortedMap.alter_congr (by rw [hget]; exact if_neg hempty)

theorem performs_remove (s : Spectrum F) (e : F) (label : Nat) :
    Performs (removeInPlace e label) s (s.remove e label) := by
  change (removeInPlace e label).run.run s = _
  by_cases h : s.holds e label = true
  · obtain ⟨level, hlevel, hlabel⟩ := holds_iff.1 h
    -- the level that goes is the one that has just lost its last label
    have herase : (s.levels.insert e (level.remove label)).erase e = s.levels.erase e :=
      SortedMap.alter_alter hlevel rfl
    rw [remove_eq hlevel hlabel, removeInPlace]
    simp only [run_bind, run_get, run_check, run_modify, hlevel, Option.filter_some, hlabel,
      if_true, expect]
    split
    · rw [run_modify, herase]
    · rfl
  · have hnone : ((s.level? e).filter fun level => level.contains label) = none := by
      rw [Option.filter_eq_none_iff]
      exact fun level hlevel hlabel => h (holds_iff.2 ⟨level, hlevel, hlabel⟩)
    rw [remove, if_neg h, removeInPlace]
    simp only [run_bind, run_get, run_check, hnone, expect]

theorem performs_apply (s : Spectrum F) (change : Change F) :
    Performs change.inPlace s (change.apply s) := by
  cases change with
  | insert e label => exact performs_modify _ s
  | remove e label => exact performs_remove s e label
  | relocate label source target => exact (performs_remove s source label).bind_modify _

/-! ## Relocating many labels -/

/-- Relocate labels one after the other, each from its source to its target. -/
def relocateAll (s : Spectrum F) (labels : List Nat) (source target : Nat → F) :
    Checked F (Spectrum F) :=
  labels.foldlM (fun s label => s.relocate label (source label) (target label)) s

theorem yields_relocateAll {labels : List Nat} {source : Nat → F} (hnodup : labels.Nodup)
    (hpairs : ∀ label ∈ labels, (key (source label), label) ∈ s.pairs) (target : Nat → F) :
    Yields (s.relocateAll labels source target) fun s' =>
      (Occupied s → Occupied s') ∧
      ∀ k label, (k, label) ∈ s'.pairs ↔
        if label ∈ labels then
          k = key (target label) ∨ (k, label) ∈ s.pairs ∧ k ≠ key (source label)
        else (k, label) ∈ s.pairs := by
  refine Yields.foldlM (fun done (s' : Spectrum F) => (Occupied s → Occupied s') ∧
    ∀ k label, (k, label) ∈ s'.pairs ↔
      if label ∈ done then k = key (target label) ∨ (k, label) ∈ s.pairs ∧ k ≠ key (source label)
      else (k, label) ∈ s.pairs) ⟨id, fun k label => by simp⟩ ?_
  intro done label rest s' hlabels hs'
  obtain ⟨hocc, hdone⟩ := hs'
  have hmem : label ∈ labels := by
    rw [hlabels]
    simp
  have hnew : label ∉ done := by
    rw [hlabels, List.nodup_append] at hnodup
    exact fun hold => hnodup.2.2 label hold label List.mem_cons_self rfl
  have hpair : (key (source label), label) ∈ s'.pairs := by
    rw [hdone, if_neg hnew]
    exact hpairs label hmem
  refine (yields_relocate_pairs hpair (target label)).mono fun s'' hs'' =>
    ⟨hs''.2 ∘ hocc, fun k other => ?_⟩
  rw [hs''.1, Finset.mem_insert, Finset.mem_erase, ne_eq, Prod.mk.injEq, Prod.mk.injEq, hdone]
  by_cases hother : other = label
  · subst hother
    simp [hnew, and_comm]
  · simp [hother]

theorem mem_pairs_of_relocateAll {labels : List Nat} {source target : Nat → F}
    (hnodup : labels.Nodup) (h : s.relocateAll labels source target = .ok s') :
    ∀ label ∈ labels, (key (source label), label) ∈ s.pairs := by
  induction labels generalizing s with
  | nil => exact fun label hlabel => absurd hlabel List.not_mem_nil
  | cons first labels ih =>
    obtain ⟨hfirst, hnodup⟩ := List.nodup_cons.1 hnodup
    rw [relocateAll, List.foldlM_cons, bind_eq_ok] at h
    obtain ⟨moved, hmoved, h⟩ := h
    have hpair : (key (source first), first) ∈ s.pairs := by
      by_contra hnot
      rw [relocate_eq_error_iff.2 ⟨hnot, rfl⟩] at hmoved
      cases hmoved
    have hpairs := ((yields_relocate_pairs hpair (target first)).of_eq_ok hmoved).1
    intro label hlabel
    rcases List.mem_cons.1 hlabel with rfl | hlabel
    · exact hpair
    · -- the move of the first label does not concern this one
      have hne : label ≠ first := fun heq => hfirst (heq ▸ hlabel)
      have hthere := ih hnodup h label hlabel
      rw [hpairs, Finset.mem_insert, Finset.mem_erase, Prod.mk.injEq] at hthere
      rcases hthere with heq | hthere
      · exact absurd heq.2 hne
      · exact hthere.2

/-- Labels that have been relocated can be relocated back in any order, which gives the levels back,
unless one of them was filed where it was relocated to before. -/
theorem Occupied.yields_relocateAll_back (h : Occupied s) {labels labels' : List Nat}
    {source target : Nat → F} (hnodup : labels.Nodup) (hperm : labels'.Perm labels)
    (hfree : ∀ label ∈ labels, key (target label) ≠ key (source label) →
      (key (target label), label) ∉ s.pairs)
    (hmoved : s.relocateAll labels source target = .ok s') :
    Yields (s'.relocateAll labels' target source) fun back => back.keyed = s.keyed := by
  have hthere := mem_pairs_of_relocateAll hnodup hmoved
  obtain ⟨hocc, hpairs⟩ := (yields_relocateAll hnodup hthere target).of_eq_ok hmoved
  have hthere' : ∀ label ∈ labels', (key (target label), label) ∈ s'.pairs := by
    intro label hlabel
    rw [hpairs, if_pos (hperm.mem_iff.1 hlabel)]
    exact .inl rfl
  refine (yields_relocateAll (hperm.nodup_iff.2 hnodup) hthere' source).mono fun back hback => ?_
  refine (hback.1 (hocc h)).keyed_eq h ?_
  ext ⟨k, label⟩
  rw [hback.2, hpairs]
  by_cases hlabel : label ∈ labels
  · rw [if_pos (hperm.mem_iff.2 hlabel), if_pos hlabel]
    constructor
    · rintro (rfl | ⟨rfl | hpair, htarget⟩)
      · exact hthere label hlabel
      · exact absurd rfl htarget
      · exact hpair.1
    · intro hpair
      by_cases hsource : k = key (source label)
      · exact .inl hsource
      · refine .inr ⟨.inr ⟨hpair, hsource⟩, fun htarget => ?_⟩
        subst htarget
        exact hfree label hlabel hsource hpair
  · rw [if_neg (mt hperm.mem_iff.1 hlabel), if_neg hlabel]

/-! ## Histories -/

/-- What can be read off a spectrum is what holds of a set of pairs: its levels are the fibres that
are not empty, in ascending order, the lowest one is that of the least key, and it has as many
levels and labels as there are keys and pairs. -/
structure Shows (s : Spectrum F) (pairs : Finset (Key F × Nat)) : Prop where
  mem_keyed_iff : ∀ k level, (k, level) ∈ s.keyed ↔ (∃ label, (k, label) ∈ pairs) ∧
    ∀ label, level.contains label = true ↔ (k, label) ∈ pairs
  ascending : s.keyed.Pairwise fun a b => a.1 < b.1
  level?_eq_some_iff : ∀ e level, s.level? e = some level ↔ (key e, level) ∈ s.keyed
  minimum?_eq_none_iff : s.minimum? = none ↔ pairs = ∅
  of_minimum? : ∀ e level, s.minimum? = some (e, level) →
    (key e, level) ∈ s.keyed ∧ ∀ pair ∈ pairs, ¬pair.1 < key e
  size_eq : s.size = (pairs.image Prod.fst).card
  labelCount_eq : s.labelCount = pairs.card

theorem Occupied.shows (h : Occupied s) : Shows s s.pairs where
  mem_keyed_iff _ _ := h.mem_keyed_iff
  ascending := s.pairwise_keyed
  level?_eq_some_iff _ _ := mem_keyed.symm
  minimum?_eq_none_iff := by
    rw [Finset.eq_empty_iff_forall_notMem]
    constructor
    · rintro hnone ⟨k, label⟩ hpair
      obtain ⟨e, rfl⟩ := exists_key k
      obtain ⟨level, hlevel, -⟩ := holds_iff.1 (mem_pairs.1 hpair)
      obtain ⟨least, hleast, -⟩ := exists_minimum hlevel
      rw [hnone] at hleast
      cases hleast
    · intro hnone
      rw [Option.eq_none_iff_forall_ne_some]
      rintro ⟨e, level⟩ hleast
      have hlevel := level?_of_mem_toList (List.mem_of_mem_head? hleast)
      obtain ⟨label, hlabel⟩ := h e level hlevel
      exact hnone (key e, label) (mem_pairs.2 (holds_iff.2 ⟨level, hlevel, hlabel⟩))
  of_minimum? e level hleast := by
    refine ⟨mem_keyed.2 (level?_of_mem_toList (List.mem_of_mem_head? hleast)), ?_⟩
    rintro ⟨k, label⟩ hpair hlt
    obtain ⟨e', rfl⟩ := exists_key k
    obtain ⟨level', hlevel', -⟩ := holds_iff.1 (mem_pairs.1 hpair)
    have hle := isLE_minimum hleast hlevel'
    rw [Std.OrientedCmp.gt_of_lt (key_lt_iff.1 hlt)] at hle
    cases hle
  size_eq := h.size_eq
  labelCount_eq := s.labelCount_eq

/-- A spectrum can be used for the set of pairs that it shows. Removing and relocating fault only
because a pair is to go that is not there, and before anything is changed. -/
structure StandsFor (s : Spectrum F) (pairs : Finset (Key F × Nat)) : Prop where
  shows : s.Shows pairs
  remove_eq_error_iff : ∀ e label fault, s.remove e label = .error fault ↔
    (key e, label) ∉ pairs ∧ fault = .unindexed label e
  relocate_eq_error_iff : ∀ label source target fault,
    s.relocate label source target = .error fault ↔
      (key source, label) ∉ pairs ∧ fault = .unindexed label source
  performs_apply : ∀ change : Change F, Performs change.inPlace s (change.apply s)
  /-- Different labels can be relocated together exactly when their pairs are there. -/
  exists_relocateAll_iff : ∀ (labels : List Nat) (source target : Nat → F), labels.Nodup →
    ((∃ moved, s.relocateAll labels source target = .ok moved) ↔
      ∀ label ∈ labels, (key (source label), label) ∈ pairs)
  /-- They can be relocated back in any order, which gives the levels back if none of them was
  already where it was relocated to. -/
  relocateAll_back : ∀ (labels : List Nat) (source target : Nat → F) (moved : Spectrum F),
    labels.Nodup → s.relocateAll labels source target = .ok moved →
      (∀ label ∈ labels, key (target label) ≠ key (source label) →
        (key (target label), label) ∉ pairs) →
      ∀ labels' : List Nat, labels'.Perm labels →
        ∃ back, moved.relocateAll labels' target source = .ok back ∧ back.keyed = s.keyed

theorem Occupied.standsFor (h : Occupied s) : StandsFor s s.pairs where
  shows := h.shows
  remove_eq_error_iff _ _ _ := Spectrum.remove_eq_error_iff
  relocate_eq_error_iff _ _ _ _ := Spectrum.relocate_eq_error_iff
  performs_apply := Spectrum.performs_apply s
  exists_relocateAll_iff labels source target hnodup := by
    constructor
    · rintro ⟨moved, hmoved⟩
      exact mem_pairs_of_relocateAll hnodup hmoved
    · intro hpairs
      obtain ⟨moved, hmoved, -⟩ := yields_relocateAll hnodup hpairs target
      exact ⟨moved, hmoved⟩
  relocateAll_back _ _ _ _ hnodup hmoved hfree _ hperm :=
    h.yields_relocateAll_back hnodup hperm hfree hmoved

theorem matches_changed_empty (changes : List (Change F)) :
    Matches (fun s pairs => Occupied s ∧ s.pairs = pairs) ((empty : Spectrum F).changed changes)
      (changedPairs ∅ changes) := by
  have hempty : Occupied (empty : Spectrum F) ∧ (empty : Spectrum F).pairs = ∅ :=
    ⟨(files_empty fun _ => zero).occupied, rfl⟩
  refine Matches.foldlM hempty fun change _ s pairs h => ?_
  rw [← h.2]
  exact h.1.matches_apply change

/-- Whatever is inserted into an empty spectrum, removed from it and relocated in it, it ends like a
set of pairs under the same changes: with the same fault, or with a spectrum that stands for the
set. On binary floating point energies have one key if they are equal, the two zeros included, or
if neither of them is a number, and the key of what is not a number is the largest. -/
theorem changed_empty :
    (∀ (F : Type) [Scalar F] (changes : List (Change F)),
      Matches StandsFor ((empty : Spectrum F).changed changes) (changedPairs ∅ changes)) ∧
    (∀ x y : Float, key x = key y ↔ (x == y) = true ∨ x.isNaN = true ∧ y.isNaN = true) ∧
    ∀ x y : Float, key x < key y ↔ x < y ∨ x.isNaN = false ∧ y.isNaN = true := by
  refine ⟨fun F _ changes => (matches_changed_empty changes).mono fun s pairs h => ?_,
    fun x y => ?_, fun x y => ?_⟩
  · obtain ⟨hocc, rfl⟩ := h
    exact hocc.standsFor
  · rw [key_eq_iff, Binary64.order_eq_eq_iff]
  · rw [key_lt_iff, Binary64.order_eq_lt_iff]

end Spectrum

end Potts
