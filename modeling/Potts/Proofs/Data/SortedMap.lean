import Mathlib.Algebra.Ring.Nat
import Mathlib.Data.List.Pairwise
import Mathlib.Data.List.Sort
import Potts.Data.SortedMap

/-!
# Entries and lookups of sorted maps

An entry of a sorted map is what a lookup of its key finds, and keys that compare as equal find the
same. On maps from labels, where only equal keys compare as equal, `get?_alter` reads without the
ordering. `sum_values_alter` follows the sum of all stored amounts through a change of one of them.
-/

namespace Potts

namespace SortedMap

variable {κ ν : Type} {cmp : κ → κ → Ordering} [Std.TransCmp cmp]

/-! ## Entries -/

theorem lookup_of_mem {key a : κ} {x : ν} (hkey : cmp key a = .eq) :
    ∀ {l : List (κ × ν)}, l.Pairwise (fun a b => cmp a.1 b.1 = .lt) → (a, x) ∈ l →
      lookup cmp key l = some x
  | [], _, hmem => by simp at hmem
  | (b, y) :: rest, h, hmem => by
    obtain ⟨hb, hrest⟩ := List.pairwise_cons.1 h
    rw [lookup_cons]
    rcases List.mem_cons.1 hmem with heq | hmem
    · cases heq
      rw [if_pos hkey]
    · have hlt : cmp b key = .lt :=
        Std.TransCmp.lt_of_lt_of_eq (hb _ hmem) (Std.OrientedCmp.eq_symm hkey)
      rw [if_neg, lookup_of_mem hkey hrest hmem]
      intro heq
      rw [Std.OrientedCmp.eq_symm heq] at hlt
      cases hlt

theorem get?_of_mem {m : SortedMap κ ν cmp} {key a : κ} {x : ν} (hmem : (a, x) ∈ m.entries)
    (hkey : cmp key a = .eq) : m.get? key = some x := lookup_of_mem hkey m.ascending hmem

theorem get?_of_mem_self {m : SortedMap κ ν cmp} {a : κ} {x : ν} (hmem : (a, x) ∈ m.entries) :
    m.get? a = some x := get?_of_mem hmem Std.ReflCmp.compare_self

omit [Std.TransCmp cmp] in
theorem exists_mem_of_get? {m : SortedMap κ ν cmp} {key : κ} {x : ν} (h : m.get? key = some x) :
    ∃ a, (a, x) ∈ m.entries ∧ cmp key a = .eq := by
  obtain ⟨⟨a, y⟩, hfind, rfl⟩ := Option.map_eq_some_iff.1 h
  exact ⟨a, List.mem_of_find?_eq_some hfind, by simpa using List.find?_some hfind⟩

theorem get?_congr {m : SortedMap κ ν cmp} {a b : κ} (h : cmp a b = .eq) : m.get? a = m.get? b := by
  have hiff : ∀ c, cmp a c = .eq ↔ cmp b c = .eq := fun c =>
    ⟨fun hc => Std.TransCmp.eq_trans (Std.OrientedCmp.eq_symm h) hc,
      fun hc => Std.TransCmp.eq_trans h hc⟩
  have hfun : (fun e : κ × ν => cmp a e.1 == .eq) = fun e => cmp b e.1 == .eq := by
    funext e
    rw [Bool.eq_iff_iff, beq_iff_eq, beq_iff_eq, hiff]
  rw [get?, get?, hfun]

theorem eq_of_mem_of_mem {m : SortedMap κ ν cmp} {e e' : κ × ν} (he : e ∈ m.entries)
    (he' : e' ∈ m.entries) (hkey : cmp e.1 e'.1 = .eq) : e = e' := by
  have hlt : m.entries.Pairwise fun a b => cmp a.1 b.1 = .eq → a = b :=
    m.ascending.imp fun h heq => by simp [h] at heq
  have hgt : m.entries.Pairwise (flip fun a b => cmp a.1 b.1 = .eq → a = b) :=
    m.ascending.imp fun h heq => by simp [Std.OrientedCmp.gt_of_lt h] at heq
  exact hlt.forall_of_forall_of_flip (fun _ _ _ => rfl) hgt he he' hkey

/-! ## Repeated changes -/

theorem alterEntries_congr {key : κ} {f g : Option ν → Option ν} :
    ∀ {l : List (κ × ν)}, l.Pairwise (fun a b => cmp a.1 b.1 = .lt) →
      f (lookup cmp key l) = g (lookup cmp key l) →
        alterEntries cmp key f l = alterEntries cmp key g l
  | [], _, hfg => by
    rw [alterEntries, alterEntries]
    exact congrArg (fun o : Option ν => o.toList.map (key, ·)) hfg
  | (a, x) :: rest, h, hfg => by
    obtain ⟨ha, hrest⟩ := List.pairwise_cons.1 h
    rw [lookup_cons] at hfg
    unfold alterEntries
    split
    · rename_i hlt
      have hnone : lookup cmp key rest = none :=
        lookup_eq_none fun e he => by simp [Std.TransCmp.lt_trans hlt (ha e he)]
      rw [if_neg (by simp [hlt]), hnone] at hfg
      rw [hfg]
    · rename_i heq
      rw [if_pos heq] at hfg
      rw [hfg]
    · rename_i hgt
      rw [if_neg (by simp [hgt])] at hfg
      rw [alterEntries_congr hrest hfg]

theorem alter_congr {m : SortedMap κ ν cmp} {key : κ} {f g : Option ν → Option ν}
    (h : f (m.get? key) = g (m.get? key)) : m.alter key f = m.alter key g :=
  SortedMap.ext (alterEntries_congr m.ascending h)

theorem alterEntries_alterEntries {key : κ} {f g : Option ν → Option ν} {x y : ν}
    (hf : f (some x) = some y) :
    ∀ {l : List (κ × ν)}, l.Pairwise (fun a b => cmp a.1 b.1 = .lt) → lookup cmp key l = some x →
      alterEntries cmp key g (alterEntries cmp key f l) = alterEntries cmp key (g ∘ f) l
  | [], _, hx => by cases hx
  | (a, z) :: rest, h, hx => by
    obtain ⟨ha, hrest⟩ := List.pairwise_cons.1 h
    rw [lookup_cons] at hx
    cases hcmp : cmp key a with
    | lt =>
      have hnone : lookup cmp key rest = none :=
        lookup_eq_none fun e he => by simp [Std.TransCmp.lt_trans hcmp (ha e he)]
      rw [if_neg (by simp [hcmp]), hnone] at hx
      cases hx
    | eq =>
      rw [if_pos hcmp] at hx
      cases hx
      simp [alterEntries, hcmp, hf]
    | gt =>
      rw [if_neg (by simp [hcmp])] at hx
      simp only [alterEntries, hcmp]
      rw [alterEntries_alterEntries hf hrest hx]

theorem alter_alter {m : SortedMap κ ν cmp} {key : κ} {f g : Option ν → Option ν} {x y : ν}
    (hx : m.get? key = some x) (hf : f (some x) = some y) :
    (m.alter key f).alter key g = m.alter key (g ∘ f) :=
  SortedMap.ext (alterEntries_alterEntries hf m.ascending hx)

/-! ## Changes of all values -/

omit [Std.TransCmp cmp] in
theorem map_alterEntries {ν' : Type} (key : κ) {g : ν → ν'} {f : Option ν → Option ν}
    {f' : Option ν' → Option ν'} (h : ∀ o, (f o).map g = f' (o.map g)) :
    ∀ l : List (κ × ν), (alterEntries cmp key f l).map (Prod.map id g) =
      alterEntries cmp key f' (l.map (Prod.map id g))
  | [] => by
    have hnone : (f none).map g = f' none := h none
    rw [alterEntries, List.map_nil, alterEntries, ← hnone]
    cases f none <;> rfl
  | (a, x) :: rest => by
    have hnone : (f none).map g = f' none := h none
    have hsome : (f (some x)).map g = f' (some (g x)) := h (some x)
    cases hcmp : cmp key a with
    | lt =>
      simp only [alterEntries, List.map_cons, Prod.map, id, hcmp, ← hnone]
      cases f none <;> rfl
    | eq =>
      simp only [alterEntries, List.map_cons, Prod.map, id, hcmp, ← hsome]
      cases f (some x) <;> rfl
    | gt =>
      simp only [alterEntries, List.map_cons, Prod.map, id, hcmp]
      exact congrArg ((a, g x) :: ·) (map_alterEntries key h rest)

theorem mapValues_alter {ν' : Type} (m : SortedMap κ ν cmp) (key : κ) {g : ν → ν'}
    {f : Option ν → Option ν} {f' : Option ν' → Option ν'}
    (h : ∀ o, (f o).map g = f' (o.map g)) :
    (m.alter key f).mapValues g = (m.mapValues g).alter key f' :=
  SortedMap.ext (map_alterEntries key h m.entries)

omit [Std.TransCmp cmp] in
theorem contains_iff {m : SortedMap κ ν cmp} {key : κ} :
    m.contains key = true ↔ ∃ x, m.get? key = some x := Option.isSome_iff_exists

/-! ## Maps from labels -/

section Labels

variable {m : SortedMap Nat ν compare}

theorem get?_alter_label (m : SortedMap Nat ν compare) (key other : Nat)
    (f : Option ν → Option ν) :
    (m.alter key f).get? other = if other = key then f (m.get? key) else m.get? other := by
  simp only [get?_alter, Nat.compare_eq_eq]

theorem get?_insert_label (m : SortedMap Nat ν compare) (key other : Nat) (value : ν) :
    (m.insert key value).get? other = if other = key then some value else m.get? other :=
  get?_alter_label m key other _

theorem get?_erase_label (m : SortedMap Nat ν compare) (key other : Nat) :
    (m.erase key).get? other = if other = key then none else m.get? other :=
  get?_alter_label m key other _

theorem mem_entries_iff {key : Nat} {x : ν} :
    (key, x) ∈ m.entries ↔ m.get? key = some x := by
  refine ⟨get?_of_mem_self, fun h => ?_⟩
  obtain ⟨a, hmem, hkey⟩ := exists_mem_of_get? h
  rwa [Nat.compare_eq_eq.1 hkey]

theorem mem_keys {a : Nat} : a ∈ m.keys ↔ m.contains a = true := by
  rw [contains_iff, SortedMap.keys, List.mem_map]
  constructor
  · rintro ⟨⟨b, x⟩, hmem, rfl⟩
    exact ⟨x, mem_entries_iff.1 hmem⟩
  · rintro ⟨x, hx⟩
    exact ⟨(a, x), mem_entries_iff.2 hx, rfl⟩

theorem ext_of_get? {m' : SortedMap Nat ν compare} (h : ∀ key, m.get? key = m'.get? key) :
    m = m' := by
  have : Std.Irrefl fun a b : Nat × ν => compare a.1 b.1 = .lt := ⟨fun a => by simp⟩
  have : Std.Antisymm fun a b : Nat × ν => compare a.1 b.1 = .lt :=
    ⟨fun a b hab hba => by rw [Nat.compare_eq_lt] at hab hba; omega⟩
  refine SortedMap.ext (m.ascending.eq_of_mem_iff m'.ascending fun e => ?_)
  rw [mem_entries_iff, mem_entries_iff, h]

variable (m)

theorem pairwise_keys : m.keys.Pairwise (· < ·) := by
  rw [SortedMap.keys, List.pairwise_map]
  exact m.ascending.imp fun h => Nat.compare_eq_lt.1 h

theorem nodup_keys : m.keys.Nodup := m.pairwise_keys.imp Nat.ne_of_lt

end Labels

/-! ## Stored amounts -/

/-- The sum of the amounts of an entry list. -/
def sumValues (l : List (κ × Nat)) : Nat := (l.map Prod.snd).sum

omit [Std.TransCmp cmp] in
theorem sumValues_toList_append (a : κ) (o : Option Nat) (l : List (κ × Nat)) :
    sumValues (o.toList.map (a, ·) ++ l) = o.getD 0 + sumValues l := by
  cases o <;> simp [sumValues]

theorem sumValues_alterEntries (key : κ) (f : Option Nat → Option Nat) :
    ∀ {l : List (κ × Nat)}, l.Pairwise (fun a b => cmp a.1 b.1 = .lt) →
      sumValues (alterEntries cmp key f l) + (lookup cmp key l).getD 0 =
        sumValues l + (f (lookup cmp key l)).getD 0
  | [], _ => by
    have h := sumValues_toList_append key (f none) []
    rw [List.append_nil] at h
    simp only [alterEntries, lookup, List.find?_nil, Option.map_none, h, Option.getD_none]
    omega
  | (a, x) :: rest, h => by
    obtain ⟨ha, hrest⟩ := List.pairwise_cons.1 h
    unfold alterEntries
    split
    · rename_i hlt
      have hnone : lookup cmp key ((a, x) :: rest) = none := by
        refine lookup_eq_none fun e he => ?_
        rcases List.mem_cons.1 he with rfl | he
        · simp [hlt]
        · simp [Std.TransCmp.lt_trans hlt (ha e he)]
      rw [hnone, sumValues_toList_append, Option.getD_none]
      omega
    · rename_i heq
      rw [lookup_cons, if_pos heq, sumValues_toList_append]
      simp only [sumValues, List.map_cons, List.sum_cons, Option.getD_some]
      omega
    · rename_i hgt
      have ih := sumValues_alterEntries key f hrest
      rw [lookup_cons, if_neg (by simp [hgt])]
      simp only [sumValues, List.map_cons, List.sum_cons] at ih ⊢
      omega

theorem sum_values_alter (m : SortedMap κ Nat cmp) (key : κ) (f : Option Nat → Option Nat) :
    (m.alter key f).values.sum + (m.get? key).getD 0 =
      m.values.sum + (f (m.get? key)).getD 0 :=
  sumValues_alterEntries key f m.ascending

end SortedMap

/-! ## Sets of labels -/

namespace SortedSet

open SortedMap

variable (s : SortedSet Nat compare)

@[simp]
theorem contains_empty (a : Nat) :
    (SortedMap.empty : SortedSet Nat compare).contains a = false := rfl

theorem contains_add (a b : Nat) : (s.add a).contains b = (b == a || s.contains b) := by
  rw [SortedSet.add, SortedMap.contains, get?_insert_label]
  by_cases h : b = a <;> simp [h, SortedMap.contains]

theorem contains_ofList (l : List Nat) (b : Nat) :
    (ofList l : SortedSet Nat compare).contains b = l.contains b := by
  have hfold : ∀ (l : List Nat) (s : SortedSet Nat compare),
      (l.foldl add s).contains b = (s.contains b || l.contains b) := by
    intro l
    induction l with
    | nil => simp
    | cons a l ih =>
      intro s
      rw [List.foldl_cons, ih, contains_add, List.contains_cons]
      cases s.contains b <;> simp
  rw [ofList, hfold, contains_empty, Bool.false_or]

theorem contains_remove (a b : Nat) : (s.remove a).contains b = (b != a && s.contains b) := by
  rw [SortedSet.remove, SortedMap.contains, get?_erase_label]
  by_cases h : b = a <;> simp [h, SortedMap.contains]

theorem mem_toList {a : Nat} : a ∈ s.toList ↔ s.contains a = true := mem_keys

theorem pairwise_toList : s.toList.Pairwise (· < ·) := s.pairwise_keys

theorem nodup_toList : s.toList.Nodup := s.nodup_keys

theorem size_eq_length : s.size = s.toList.length := by
  rw [SortedMap.size, SortedSet.toList, SortedMap.keys, List.length_map]

theorem isEmpty_iff : s.isEmpty = true ↔ ∀ a, s.contains a = false := by
  have hnil : s.isEmpty = true ↔ s.toList = [] := by
    rw [SortedMap.isEmpty, List.isEmpty_iff, SortedSet.toList, SortedMap.keys, List.map_eq_nil_iff]
  rw [hnil, List.eq_nil_iff_forall_not_mem]
  exact forall_congr' fun a => by rw [mem_toList, Bool.not_eq_true]

variable {s} in
theorem eq_of_contains {t : SortedSet Nat compare} (h : ∀ a, s.contains a = t.contains a) :
    s = t := by
  refine ext_of_get? fun a => ?_
  have hs := h a
  rw [SortedMap.contains, SortedMap.contains] at hs
  cases hget : s.get? a <;> cases hget' : t.get? a <;> simp_all

theorem ofList_cons (a : Nat) (l : List Nat) :
    (ofList (a :: l) : SortedSet Nat compare) = (ofList l).add a := by
  refine eq_of_contains fun b => ?_
  rw [contains_ofList, contains_add, contains_ofList, List.contains_cons]

end SortedSet

end Potts
