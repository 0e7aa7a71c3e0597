/-!
# Sorted maps

A finite map kept as the list of its entries in ascending key order, no key twice. Every change
goes through `alter`, which looks at one key, and `get?_alter` says what that does to every lookup.
Keys are compared by an ordering that may identify different keys; an entry keeps the key it was
first stored under.
-/

namespace Potts

/-- A finite map from `κ` to `ν` whose entries ascend strictly under `cmp`. -/
@[ext]
structure SortedMap (κ ν : Type) (cmp : κ → κ → Ordering) where
  entries : List (κ × ν)
  /-- No two keys are equal under `cmp`, and the smaller comes first. -/
  ascending : entries.Pairwise fun a b => cmp a.1 b.1 = .lt

namespace SortedMap

variable {κ ν : Type} {cmp : κ → κ → Ordering}

/-! ## Changing one key of an entry list -/

/-- Change what an ascending entry list holds at `key`: `f` sees the present value, if there is one,
and answers with the value to keep, if any. -/
def alterEntries (cmp : κ → κ → Ordering) (key : κ) (f : Option ν → Option ν) :
    List (κ × ν) → List (κ × ν)
  | [] => (f none).toList.map (key, ·)
  | (a, x) :: rest =>
    match cmp key a with
    | .lt => (f none).toList.map (key, ·) ++ (a, x) :: rest
    | .eq => (f (some x)).toList.map (a, ·) ++ rest
    | .gt => (a, x) :: alterEntries cmp key f rest

theorem lt_of_mem_alterEntries {b key : κ} {f : Option ν → Option ν} (hkey : cmp b key = .lt) :
    ∀ {l : List (κ × ν)}, (∀ e ∈ l, cmp b e.1 = .lt) →
      ∀ e ∈ alterEntries cmp key f l, cmp b e.1 = .lt
  | [], _, e, he => by
    simp only [alterEntries, List.mem_map] at he
    obtain ⟨v, -, rfl⟩ := he
    exact hkey
  | (a, x) :: rest, h, e, he => by
    have ha := h (a, x) List.mem_cons_self
    have hrest : ∀ e ∈ rest, cmp b e.1 = .lt := fun e he => h e (List.mem_cons_of_mem _ he)
    unfold alterEntries at he
    split at he
    · rcases List.mem_append.1 he with he | he
      · obtain ⟨v, -, rfl⟩ := List.mem_map.1 he
        exact hkey
      · exact h e he
    · rcases List.mem_append.1 he with he | he
      · obtain ⟨v, -, rfl⟩ := List.mem_map.1 he
        exact ha
      · exact hrest e he
    · rcases List.mem_cons.1 he with rfl | he
      · exact ha
      · exact lt_of_mem_alterEntries hkey hrest e he

theorem pairwise_toList_append {a : κ} {o : Option ν} {l : List (κ × ν)}
    (h : l.Pairwise fun a b => cmp a.1 b.1 = .lt) (ha : ∀ e ∈ l, cmp a e.1 = .lt) :
    (o.toList.map (a, ·) ++ l).Pairwise fun a b => cmp a.1 b.1 = .lt := by
  cases o with
  | none => exact h
  | some v => exact List.pairwise_cons.2 ⟨fun e he => ha e he, h⟩

theorem pairwise_alterEntries [Std.TransCmp cmp] (key : κ) (f : Option ν → Option ν) :
    ∀ {l : List (κ × ν)}, l.Pairwise (fun a b => cmp a.1 b.1 = .lt) →
      (alterEntries cmp key f l).Pairwise fun a b => cmp a.1 b.1 = .lt
  | [], h => by
    have := pairwise_toList_append (a := key) (o := f none) h (by simp)
    simpa [alterEntries] using this
  | (a, x) :: rest, h => by
    obtain ⟨ha, hrest⟩ := List.pairwise_cons.1 h
    unfold alterEntries
    split
    · rename_i hlt
      refine pairwise_toList_append h fun e he => ?_
      rcases List.mem_cons.1 he with rfl | he
      · exact hlt
      · exact Std.TransCmp.lt_trans hlt (ha e he)
    · exact pairwise_toList_append hrest fun e he => ha e he
    · rename_i hgt
      refine List.pairwise_cons.2 ⟨?_, pairwise_alterEntries key f hrest⟩
      exact lt_of_mem_alterEntries (Std.OrientedCmp.lt_of_gt hgt) ha

/-! ## The map -/

def empty : SortedMap κ ν cmp := ⟨[], .nil⟩

instance : Inhabited (SortedMap κ ν cmp) := ⟨empty⟩

def get? (m : SortedMap κ ν cmp) (key : κ) : Option ν :=
  (m.entries.find? fun e => cmp key e.1 == .eq).map Prod.snd

def contains (m : SortedMap κ ν cmp) (key : κ) : Bool := (m.get? key).isSome

def size (m : SortedMap κ ν cmp) : Nat := m.entries.length

def isEmpty (m : SortedMap κ ν cmp) : Bool := m.entries.isEmpty

def keys (m : SortedMap κ ν cmp) : List κ := m.entries.map Prod.fst

def values (m : SortedMap κ ν cmp) : List ν := m.entries.map Prod.snd

/-- The map that stores at every key what `f` makes of the value. -/
def mapValues {ν' : Type} (m : SortedMap κ ν cmp) (f : ν → ν') : SortedMap κ ν' cmp :=
  ⟨m.entries.map (Prod.map id f), List.pairwise_map.2 m.ascending⟩

section Alter

variable [Std.TransCmp cmp]

/-- Change what is stored at `key`: `f` sees the present value, if there is one, and answers with
the value to keep, if any. -/
def alter (m : SortedMap κ ν cmp) (key : κ) (f : Option ν → Option ν) : SortedMap κ ν cmp :=
  ⟨alterEntries cmp key f m.entries, pairwise_alterEntries key f m.ascending⟩

def insert (m : SortedMap κ ν cmp) (key : κ) (value : ν) : SortedMap κ ν cmp :=
  m.alter key fun _ => some value

def erase (m : SortedMap κ ν cmp) (key : κ) : SortedMap κ ν cmp :=
  m.alter key fun _ => none

/-- The map that stores the pairs of a list, a later pair replacing an earlier one. -/
def ofList (l : List (κ × ν)) : SortedMap κ ν cmp :=
  l.foldl (fun m e => m.insert e.1 e.2) empty

/-! ## Lookups after a change -/

omit [Std.TransCmp cmp] in
@[simp]
theorem get?_empty (key : κ) : (empty : SortedMap κ ν cmp).get? key = none := rfl

/-- The value that an entry list holds at `key`. -/
def lookup (cmp : κ → κ → Ordering) (key : κ) (l : List (κ × ν)) : Option ν :=
  (l.find? fun e => cmp key e.1 == .eq).map Prod.snd

omit [Std.TransCmp cmp] in
theorem lookup_cons (key a : κ) (x : ν) (l : List (κ × ν)) :
    lookup cmp key ((a, x) :: l) = if cmp key a = .eq then some x else lookup cmp key l := by
  unfold lookup
  by_cases h : cmp key a = .eq <;> simp [h]

omit [Std.TransCmp cmp] in
theorem lookup_eq_none {key : κ} {l : List (κ × ν)} (h : ∀ e ∈ l, cmp key e.1 ≠ .eq) :
    lookup cmp key l = none := by
  simp only [lookup, Option.map_eq_none_iff, List.find?_eq_none, beq_iff_eq]
  exact h

omit [Std.TransCmp cmp] in
theorem lookup_toList_append (key a : κ) (o : Option ν) (l : List (κ × ν)) :
    lookup cmp key (o.toList.map (a, ·) ++ l) =
      if cmp key a = .eq then o.or (lookup cmp key l) else lookup cmp key l := by
  cases o <;> simp [lookup_cons]

theorem lookup_alterEntries (key other : κ) (f : Option ν → Option ν) :
    ∀ {l : List (κ × ν)}, l.Pairwise (fun a b => cmp a.1 b.1 = .lt) →
      lookup cmp other (alterEntries cmp key f l) =
        if cmp other key = .eq then f (lookup cmp key l) else lookup cmp other l
  | [], _ => by
    have h := @lookup_toList_append κ ν cmp other key (f none) []
    have hnil : ∀ k : κ, lookup cmp k ([] : List (κ × ν)) = none := fun _ => rfl
    simpa [alterEntries, hnil] using h
  | (a, x) :: rest, h => by
    obtain ⟨ha, hrest⟩ := List.pairwise_cons.1 h
    unfold alterEntries
    split
    · rename_i hlt
      have hnone : ∀ k, cmp k key = .eq → lookup cmp k ((a, x) :: rest) = none := by
        intro k hk
        refine lookup_eq_none fun e he => ?_
        have hka := Std.TransCmp.lt_of_eq_of_lt hk hlt
        rcases List.mem_cons.1 he with rfl | he
        · simp [hka]
        · simp [Std.TransCmp.lt_trans hka (ha e he)]
      rw [lookup_toList_append]
      split
      · rename_i hk
        simp [hnone other hk, hnone key Std.ReflCmp.compare_self]
      · rfl
    · rename_i heq
      have hnone : cmp other key = .eq → lookup cmp other rest = none := by
        intro hk
        refine lookup_eq_none fun e he => ?_
        have hoa := Std.TransCmp.eq_trans hk heq
        simp [Std.TransCmp.lt_of_eq_of_lt hoa (ha e he)]
      have hiff : cmp other a = .eq ↔ cmp other key = .eq :=
        ⟨fun ho => Std.TransCmp.eq_trans ho (Std.OrientedCmp.eq_symm heq),
          fun ho => Std.TransCmp.eq_trans ho heq⟩
      rw [lookup_toList_append, lookup_cons, lookup_cons, if_pos heq]
      by_cases hk : cmp other key = .eq
      · simp [hiff.2 hk, hk, hnone hk]
      · simp [mt hiff.1 hk, hk]
    · rename_i hgt
      rw [lookup_cons, lookup_cons, lookup_cons, lookup_alterEntries key other f hrest]
      by_cases hk : cmp other key = .eq
      · have hoa : cmp other a ≠ .eq := fun ho => by
          have := Std.TransCmp.eq_trans (Std.OrientedCmp.eq_symm hk) ho
          simp [hgt] at this
        simp [hk, hoa, hgt]
      · simp [hk]

theorem get?_alter (m : SortedMap κ ν cmp) (key other : κ) (f : Option ν → Option ν) :
    (m.alter key f).get? other = if cmp other key = .eq then f (m.get? key) else m.get? other :=
  lookup_alterEntries key other f m.ascending

@[simp]
theorem get?_insert (m : SortedMap κ ν cmp) (key other : κ) (value : ν) :
    (m.insert key value).get? other = if cmp other key = .eq then some value else m.get? other :=
  get?_alter m key other _

@[simp]
theorem get?_erase (m : SortedMap κ ν cmp) (key other : κ) :
    (m.erase key).get? other = if cmp other key = .eq then none else m.get? other :=
  get?_alter m key other _

theorem exists_mem_of_get?_ofList {l : List (κ × ν)} {key : κ} {value : ν}
    (h : (ofList l : SortedMap κ ν cmp).get? key = some value) : ∃ e ∈ l, e.2 = value := by
  have hfold : ∀ (l : List (κ × ν)) (m : SortedMap κ ν cmp),
      (l.foldl (fun m e => m.insert e.1 e.2) m).get? key = some value →
        m.get? key = some value ∨ ∃ e ∈ l, e.2 = value := by
    intro l
    induction l with
    | nil => exact fun m hm => .inl hm
    | cons e l ih =>
      intro m hm
      rcases ih _ hm with hstored | ⟨e', he', hvalue⟩
      · rw [get?_insert] at hstored
        split at hstored
        · exact .inr ⟨e, List.mem_cons_self, Option.some.inj hstored⟩
        · exact .inl hstored
      · exact .inr ⟨e', List.mem_cons_of_mem e he', hvalue⟩
  exact (hfold l empty h).resolve_left (by simp)

end Alter

end SortedMap

/-! ## Sorted sets -/

/-- A finite set kept in ascending order: the keys of a map that stores nothing at them. -/
abbrev SortedSet (κ : Type) (cmp : κ → κ → Ordering) := SortedMap κ Unit cmp

namespace SortedSet

variable {κ : Type} {cmp : κ → κ → Ordering}

def toList (s : SortedSet κ cmp) : List κ := SortedMap.keys s

def add [Std.TransCmp cmp] (s : SortedSet κ cmp) (a : κ) : SortedSet κ cmp :=
  SortedMap.insert s a ()

def ofList [Std.TransCmp cmp] (l : List κ) : SortedSet κ cmp := l.foldl add .empty

def remove [Std.TransCmp cmp] (s : SortedSet κ cmp) (a : κ) : SortedSet κ cmp :=
  SortedMap.erase s a

end SortedSet

end Potts
