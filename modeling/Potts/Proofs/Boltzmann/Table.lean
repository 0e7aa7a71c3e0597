import Mathlib.Data.List.Perm.Subperm
import Potts.Boltzmann.Table
import Potts.Proofs.Energy.Spectrum
import Potts.Proofs.Failure.Checked

/-!
# What patches do to a table

A table that is `Intact` has the entries of its build only, all of them valid, and its slots say
where the entry of every energy is. A patched table is written `base.patched invalid appended`: the
entries of an intact table, those at the positions `invalid` marked, with `appended` behind them.
Patching a touched energy changes these two lists and nothing else, so any number of patches is a
patch, and restoring it gives the intact table back.
-/

namespace Potts.BoltzmannTable

open Checked Scalar

variable {F : Type} [Scalar F] {t base : BoltzmannTable F} {invalid : List Nat}
  {appended : Array (TableEntry F)} {s : Spectrum F}

/-! ## Intact tables -/

/-- The table has the entries of its build only, all are valid, and the slots find them. -/
structure Intact (t : BoltzmannTable F) : Prop where
  builtSize_eq : t.builtSize = t.entries.size
  invalidated_eq : t.invalidated = []
  valid_eq : t.valid = t.entries.size
  valid : ∀ entry ∈ t.entries, entry.valid = true
  slots_iff : ∀ e i, t.slots.get? e = some i ↔
    ∃ entry, t.entries[i]? = some entry ∧ order e entry.energy = .eq

theorem Intact.enterSteepest (h : Intact t) : Intact t.enterSteepest :=
  ⟨h.builtSize_eq, h.invalidated_eq, h.valid_eq, h.valid, h.slots_iff⟩

theorem Intact.slot_lt (h : Intact t) {e : F} {i : Nat} (hi : t.slots.get? e = some i) :
    i < t.entries.size := by
  obtain ⟨entry, hentry, -⟩ := (h.slots_iff e i).1 hi
  exact (Array.getElem?_eq_some_iff.1 hentry).1

theorem intact_empty (weighing : Weighing F) : Intact (empty weighing) where
  builtSize_eq := rfl
  invalidated_eq := rfl
  valid_eq := rfl
  valid entry h := by simp [empty] at h
  slots_iff e i := by simp [empty]

/-- The entry of a level behind a bound, unless its weight does not change the bound. -/
def entryFor? (w : Weighing F) (bound e : F) (size : Nat) : Option (TableEntry F) :=
  let next := bound + w.weight e size
  if next == bound then none else some ⟨next, e, true⟩

theorem append?_eq (t : BoltzmannTable F) (e : F) (size : Nat) :
    t.append? e size = (entryFor? t.weighing t.total e size).map fun entry =>
      { t with entries := t.entries.push entry, valid := t.valid + 1 } := by
  simp only [append?, entryFor?]
  split <;> rfl

theorem entryFor?_eq_some {w : Weighing F} {bound e : F} {size : Nat} {entry : TableEntry F}
    (h : entryFor? w bound e size = some entry) : entry.valid = true ∧ entry.energy = e := by
  simp only [entryFor?] at h
  split at h
  · cases h
  · cases h
    exact ⟨rfl, rfl⟩

theorem addLevel_eq (t : BoltzmannTable F) (level : F × LabelSet) :
    t.addLevel level = t ∨ ∃ bound, t.addLevel level =
      { t with
        entries := t.entries.push ⟨bound, level.1, true⟩
        slots := t.slots.insert level.1 t.entries.size
        builtSize := t.entries.size + 1
        valid := t.valid + 1 } := by
  rw [addLevel, append?_eq]
  cases hentry : entryFor? t.weighing t.total level.1 level.2.size with
  | none => exact Or.inl rfl
  | some entry =>
    obtain ⟨hvalid, henergy⟩ := entryFor?_eq_some hentry
    refine Or.inr ⟨entry.bound, ?_⟩
    rw [← hvalid, ← henergy]
    simp

theorem weighing_addLevel (t : BoltzmannTable F) (level : F × LabelSet) :
    (t.addLevel level).weighing = t.weighing := by
  rcases addLevel_eq t level with heq | ⟨bound, heq⟩ <;> rw [heq]

theorem weighing_build (s : Spectrum F) (degree : Nat) (strength temperature shift : F) :
    (build s degree strength temperature shift).weighing =
      ⟨(degree : F), Weighing.ceilingOf degree strength (s.minimum?.map Prod.fst), temperature,
        shift⟩ := by
  have key : ∀ (l : List (F × LabelSet)) (t : BoltzmannTable F),
      (l.foldl addLevel t).weighing = t.weighing := by
    intro l
    induction l with
    | nil => intro t; rfl
    | cons level l ih => intro t; rw [List.foldl_cons, ih, weighing_addLevel]
  exact key s.toList _

theorem Intact.addLevel (h : Intact t) {level : F × LabelSet}
    (hnew : ∀ entry ∈ t.entries, order entry.energy level.1 ≠ .eq) :
    Intact (t.addLevel level) ∧
      ∀ entry ∈ (t.addLevel level).entries, entry ∈ t.entries ∨ entry.energy = level.1 := by
  rcases addLevel_eq t level with heq | ⟨bound, heq⟩
  · rw [heq]
    exact ⟨h, fun entry => Or.inl⟩
  · rw [heq]
    refine ⟨⟨by simp, h.invalidated_eq, by simp [h.valid_eq], fun entry hentry => ?_,
      fun e i => ?_⟩, fun entry hentry => ?_⟩
    · rcases Array.mem_push.1 hentry with hentry | rfl
      · exact h.valid entry hentry
      · rfl
    · simp only [SortedMap.get?_insert, Array.getElem?_push]
      by_cases he : order e level.1 = .eq
      · rw [if_pos he]
        constructor
        · intro hi
          cases hi
          exact ⟨⟨bound, level.1, true⟩, by rw [if_pos rfl], he⟩
        · rintro ⟨entry, hentry, hkey⟩
          split at hentry
          · rename_i hi
            rw [hi]
          · refine absurd ?_ (hnew entry (Array.mem_of_getElem? hentry))
            exact Std.TransCmp.eq_trans (Std.OrientedCmp.eq_symm hkey) he
      · rw [if_neg he, h.slots_iff]
        refine exists_congr fun entry => and_congr_left fun hkey => ?_
        split
        · rename_i hi
          constructor
          · intro hentry
            rw [hi, Array.getElem?_size] at hentry
            cases hentry
          · intro hentry
            cases hentry
            exact absurd hkey he
        · rfl
    · rcases Array.mem_push.1 hentry with hentry | rfl
      · exact Or.inl hentry
      · exact Or.inr rfl

theorem Intact.foldl_addLevel {l : List (F × LabelSet)} (h : Intact t)
    (hl : l.Pairwise fun a b => order a.1 b.1 = .lt)
    (hnew : ∀ entry ∈ t.entries, ∀ level ∈ l, order entry.energy level.1 ≠ .eq) :
    Intact (l.foldl BoltzmannTable.addLevel t) ∧
      ∀ entry ∈ (l.foldl BoltzmannTable.addLevel t).entries,
        entry ∈ t.entries ∨ ∃ level ∈ l, level.1 = entry.energy := by
  induction l generalizing t with
  | nil => exact ⟨h, fun entry => Or.inl⟩
  | cons level l ih =>
    obtain ⟨hlevel, hl⟩ := List.pairwise_cons.1 hl
    obtain ⟨h', hentries⟩ := h.addLevel fun entry hentry =>
      hnew entry hentry level List.mem_cons_self
    have hnew' : ∀ entry ∈ (t.addLevel level).entries, ∀ level' ∈ l,
        order entry.energy level'.1 ≠ .eq := by
      intro entry hentry level' hmem
      rcases hentries entry hentry with hold | heq
      · exact hnew entry hold level' (List.mem_cons_of_mem level hmem)
      · rw [heq, hlevel level' hmem]
        decide
    obtain ⟨hintact, hbuilt⟩ := ih h' hl hnew'
    refine ⟨hintact, fun entry hentry => ?_⟩
    rcases hbuilt entry hentry with hold | ⟨level', hmem, heq⟩
    · rcases hentries entry hold with hold | heq
      · exact Or.inl hold
      · exact Or.inr ⟨level, List.mem_cons_self, heq.symm⟩
    · exact Or.inr ⟨level', List.mem_cons_of_mem level hmem, heq⟩

theorem intact_build (s : Spectrum F) (degree : Nat) (strength temperature shift : F) :
    Intact (build s degree strength temperature shift) ∧
      ∀ entry ∈ (build s degree strength temperature shift).entries,
        ∃ level ∈ s.toList, level.1 = entry.energy := by
  have hbuilt := (intact_empty ⟨(degree : F), Weighing.ceilingOf degree strength
    (s.minimum?.map Prod.fst), temperature, shift⟩).foldl_addLevel s.levels.ascending
    fun entry h => by simp [empty] at h
  refine ⟨⟨hbuilt.1.builtSize_eq, hbuilt.1.invalidated_eq, hbuilt.1.valid_eq, hbuilt.1.valid,
    hbuilt.1.slots_iff⟩, fun entry hentry => ?_⟩
  rcases hbuilt.2 entry hentry with h | h
  · simp [empty] at h
  · exact h

/-! ## Patched tables -/

/-- Entries of which those at some positions are marked as invalid. -/
def marked (entries : Array (TableEntry F)) (invalid : List Nat) : Array (TableEntry F) :=
  entries.mapIdx fun i entry => { entry with valid := decide (i ∉ invalid) }

/-- A table with some of its entries invalid and others appended. -/
def patched (base : BoltzmannTable F) (invalid : List Nat) (appended : Array (TableEntry F)) :
    BoltzmannTable F :=
  { base with
    entries := marked base.entries invalid ++ appended
    invalidated := invalid
    valid := base.entries.size + appended.size - invalid.length }

omit [Scalar F] in
@[simp]
theorem size_marked (entries : Array (TableEntry F)) (invalid : List Nat) :
    (marked entries invalid).size = entries.size := Array.size_mapIdx

omit [Scalar F] in
theorem marked_nil {entries : Array (TableEntry F)}
    (h : ∀ entry ∈ entries, entry.valid = true) :
    marked entries [] = entries := by
  refine Array.ext_getElem? fun i => ?_
  rw [marked, Array.getElem?_mapIdx]
  cases hentry : entries[i]? with
  | none => rfl
  | some entry =>
    have hvalid := h entry (Array.mem_of_getElem? hentry)
    simp [← hvalid]

theorem Intact.patched_nil (h : Intact base) : base.patched [] #[] = base := by
  rw [patched, marked_nil h.valid, Array.append_empty]
  have hinvalid := h.invalidated_eq
  have hvalid := h.valid_eq
  cases base
  simp_all

omit [Scalar F] in
theorem setIfInBounds_marked {entries : Array (TableEntry F)} {i : Nat} {entry : TableEntry F}
    (hentry : entries[i]? = some entry) (invalid invalid' : List Nat)
    (h : ∀ j, j ≠ i → (j ∈ invalid ↔ j ∈ invalid')) :
    (marked entries invalid).setIfInBounds i { entry with valid := decide (i ∉ invalid') } =
      marked entries invalid' := by
  refine Array.ext_getElem? fun j => ?_
  rw [Array.getElem?_setIfInBounds, size_marked, marked, marked, Array.getElem?_mapIdx,
    Array.getElem?_mapIdx]
  have hlt := (Array.getElem?_eq_some_iff.1 hentry).1
  by_cases hj : i = j
  · subst hj
    rw [if_pos rfl, if_pos hlt, hentry]
    rfl
  · rw [if_neg hj]
    congr 1
    funext entry'
    simp only [h j (Ne.symm hj)]

omit [Scalar F] in
theorem bound_back?_marked (entries : Array (TableEntry F)) (invalid : List Nat) :
    (marked entries invalid).back?.map TableEntry.bound = entries.back?.map TableEntry.bound := by
  rw [Array.back?_eq_getElem?, Array.back?_eq_getElem?, size_marked, marked,
    Array.getElem?_mapIdx, Option.map_map]
  rfl

theorem total_patched (base : BoltzmannTable F) (invalid : List Nat)
    (appended : Array (TableEntry F)) :
    (base.patched invalid appended).total =
      ((appended.back?.map TableEntry.bound).or (base.entries.back?.map TableEntry.bound)).getD
        zero := by
  rw [total, patched]
  dsimp only
  rw [Array.back?_append, Option.map_or, bound_back?_marked]

/-- A list of positions of the entries of a table, each at most once. -/
structure Positions (base : BoltzmannTable F) (invalid : List Nat) : Prop where
  nodup : invalid.Nodup
  lt : ∀ i ∈ invalid, i < base.entries.size

theorem positions_nil (base : BoltzmannTable F) : Positions base [] :=
  ⟨List.nodup_nil, fun i hi => by cases hi⟩

theorem Positions.cons (h : Positions base invalid) {i : Nat} (hi : i < base.entries.size)
    (hnot : i ∉ invalid) : Positions base (i :: invalid) where
  nodup := List.nodup_cons.2 ⟨hnot, h.nodup⟩
  lt j hj := by
    rcases List.mem_cons.1 hj with rfl | hj
    · exact hi
    · exact h.lt j hj

theorem Positions.length_le (h : Positions base invalid) : invalid.length ≤ base.entries.size := by
  have hsub : invalid ⊆ List.range base.entries.size := fun i hi => List.mem_range.2 (h.lt i hi)
  have hle := (List.subperm_of_subset h.nodup hsub).length_le
  rwa [List.length_range] at hle

/-- The positions that are invalid after one energy is touched. -/
def invalidatedBy (base : BoltzmannTable F) (invalid : List Nat) (e : F) : List Nat :=
  match base.slots.get? e with
  | none => invalid
  | some i => if i ∈ invalid then invalid else i :: invalid

theorem mem_invalidatedBy {e : F} {i : Nat} :
    i ∈ base.invalidatedBy invalid e ↔ i ∈ invalid ∨ base.slots.get? e = some i := by
  unfold invalidatedBy
  cases base.slots.get? e with
  | none => simp
  | some j =>
    by_cases hj : j ∈ invalid
    · simp only [if_pos hj, Option.some.injEq]
      constructor
      · exact Or.inl
      · rintro (h | rfl)
        · exact h
        · exact hj
    · simp only [if_neg hj, List.mem_cons, Option.some.injEq]
      tauto

theorem Intact.positions_invalidatedBy (h : Intact base) (hinvalid : Positions base invalid)
    (e : F) : Positions base (base.invalidatedBy invalid e) := by
  unfold invalidatedBy
  cases hslot : base.slots.get? e with
  | none => exact hinvalid
  | some i =>
    dsimp only
    split
    · exact hinvalid
    · rename_i hi
      exact hinvalid.cons (h.slot_lt hslot) hi

theorem mem_foldl_invalidatedBy {touched : List F} {i : Nat} :
    i ∈ touched.foldl base.invalidatedBy invalid ↔
      i ∈ invalid ∨ ∃ e ∈ touched, base.slots.get? e = some i := by
  induction touched generalizing invalid with
  | nil => simp
  | cons e touched ih =>
    rw [List.foldl_cons, ih, mem_invalidatedBy, or_assoc, List.exists_mem_cons_iff]

theorem Intact.positions_foldl (h : Intact base) (hinvalid : Positions base invalid)
    (touched : List F) : Positions base (touched.foldl base.invalidatedBy invalid) := by
  induction touched generalizing invalid with
  | nil => exact hinvalid
  | cons e touched ih => exact ih (h.positions_invalidatedBy hinvalid e)

theorem Intact.invalidate_patched (h : Intact base) (hinvalid : Positions base invalid) (e : F) :
    (base.patched invalid appended).invalidate e =
      .ok (base.patched (base.invalidatedBy invalid e) appended) := by
  unfold invalidate invalidatedBy
  change (match base.slots.get? e with | none => _ | some i => _) = _
  cases hslot : base.slots.get? e with
  | none => rfl
  | some i =>
    obtain ⟨entry, hentry, -⟩ := (h.slots_iff e i).1 hslot
    have hi := h.slot_lt hslot
    have hfetch : (base.patched invalid appended).entries[i]? =
        some { entry with valid := decide (i ∉ invalid) } := by
      change (marked base.entries invalid ++ appended)[i]? = _
      rw [Array.getElem?_append_left (by rwa [size_marked]), marked, Array.getElem?_mapIdx, hentry]
      rfl
    dsimp only
    rw [Checked.fetch, hfetch]
    change (if decide (i ∉ invalid) = true then _ else _) = _
    by_cases hmem : i ∈ invalid
    · rw [if_neg (by simpa using hmem), if_pos hmem]
      rfl
    · have hlength := (hinvalid.cons hi hmem).length_le
      -- The entry that is about to be marked is still counted, so the counter is positive.
      rw [List.length_cons] at hlength
      rw [if_pos (by simpa using hmem), if_neg hmem]
      have hsub : (Checked.sub (base.patched invalid appended).valid 1 : Checked F Nat) =
          .ok (base.entries.size + appended.size - (i :: invalid).length) := by
        change (if base.entries.size + appended.size - invalid.length < 1 then _ else _) = _
        rw [if_neg (by omega), List.length_cons, ← Nat.sub_sub]
        rfl
      rw [hsub]
      change Except.ok _ = Except.ok _
      rw [patched, patched]
      simp only [Except.ok.injEq, BoltzmannTable.mk.injEq, and_true]
      rw [Array.setIfInBounds_append_left (by rwa [size_marked])]
      have hmarked := setIfInBounds_marked hentry invalid (i :: invalid) fun j hj => by simp [hj]
      simpa using congrArg (· ++ appended) hmarked

theorem append?_patched (hinvalid : Positions base invalid) (e : F) (size : Nat) :
    (base.patched invalid appended).append? e size =
      (entryFor? base.weighing (base.patched invalid appended).total e size).map fun entry =>
        base.patched invalid (appended.push entry) := by
  rw [append?_eq]
  refine congrArg (Option.map · _) (funext fun entry => ?_)
  have hle := hinvalid.length_le
  simp only [patched, BoltzmannTable.mk.injEq, and_true, true_and, Array.push_append,
    Array.size_push]
  omega

theorem Intact.perturbOne_patched (h : Intact base) (hinvalid : Positions base invalid) (n : Nat)
    (e : F) :
    perturbOne s (base.patched invalid appended, n) e =
      .ok (((s.level? e).bind fun level =>
          entryFor? base.weighing (base.patched invalid appended).total e level.size).elim
        (base.patched (base.invalidatedBy invalid e) appended, n)
        fun entry =>
          (base.patched (base.invalidatedBy invalid e) (appended.push entry), n + 1)) := by
  have hpositions := h.positions_invalidatedBy hinvalid e
  have htotal : (base.patched (base.invalidatedBy invalid e) appended).total =
      (base.patched invalid appended).total := by
    rw [total_patched, total_patched]
  have hbind : ((s.level? e).bind fun level =>
      (base.patched (base.invalidatedBy invalid e) appended).append? e level.size) =
      ((s.level? e).bind fun level =>
        entryFor? base.weighing (base.patched invalid appended).total e level.size).map
          fun entry => base.patched (base.invalidatedBy invalid e) (appended.push entry) := by
    cases s.level? e with
    | none => rfl
    | some level => rw [Option.bind_some, Option.bind_some, append?_patched hpositions, htotal]
  rw [perturbOne, h.invalidate_patched hinvalid, ok_bind, hbind]
  cases (s.level? e).bind fun level =>
    entryFor? base.weighing (base.patched invalid appended).total e level.size <;> rfl

/-- The entries that a patch appends behind a bound: those of the levels at the touched energies. -/
def appendedEntries (w : Weighing F) (s : Spectrum F) (bound : F) : List F → List (TableEntry F)
  | [] => []
  | e :: rest =>
    match (s.level? e).bind fun level => entryFor? w bound e level.size with
    | none => appendedEntries w s bound rest
    | some entry => entry :: appendedEntries w s entry.bound rest

theorem of_mem_appendedEntries {w : Weighing F} {bound : F} {touched : List F}
    {entry : TableEntry F} (h : entry ∈ appendedEntries w s bound touched) :
    entry.valid = true ∧ entry.energy ∈ touched ∧
      ∃ level, s.level? entry.energy = some level := by
  induction touched generalizing bound with
  | nil => cases h
  | cons e touched ih =>
    have hrest : ∀ bound', entry ∈ appendedEntries w s bound' touched →
        entry.valid = true ∧ entry.energy ∈ e :: touched ∧
          ∃ level, s.level? entry.energy = some level := by
      intro bound' hmem
      obtain ⟨hvalid, htouched, hlevel⟩ := ih hmem
      exact ⟨hvalid, List.mem_cons_of_mem e htouched, hlevel⟩
    rw [appendedEntries] at h
    split at h
    · exact hrest bound h
    · rename_i first hfirst
      rcases List.mem_cons.1 h with rfl | h
      · obtain ⟨level, hlevel, hentry⟩ := Option.bind_eq_some_iff.1 hfirst
        obtain ⟨hvalid, henergy⟩ := entryFor?_eq_some hentry
        rw [henergy]
        exact ⟨hvalid, List.mem_cons_self, level, hlevel⟩
      · exact hrest first.bound h

theorem Intact.foldlM_perturbOne (h : Intact base) (hinvalid : Positions base invalid)
    (appended : Array (TableEntry F)) (s : Spectrum F) (touched : List F) (n : Nat) :
    touched.foldlM (perturbOne s) (base.patched invalid appended, n) =
      let more := appendedEntries base.weighing s (base.patched invalid appended).total touched
      .ok (base.patched (touched.foldl base.invalidatedBy invalid) (appended ++ more.toArray),
        n + more.length) := by
  induction touched generalizing invalid appended n with
  | nil => simp [appendedEntries]; rfl
  | cons e touched ih =>
    have hpositions := h.positions_invalidatedBy hinvalid e
    rw [List.foldlM_cons, h.perturbOne_patched hinvalid, ok_bind, appendedEntries,
      List.foldl_cons]
    cases (s.level? e).bind fun level =>
        entryFor? base.weighing (base.patched invalid appended).total e level.size with
    | none =>
      dsimp only [Option.elim_none]
      rw [ih hpositions, total_patched, total_patched]
    | some entry =>
      have htotal : (base.patched (base.invalidatedBy invalid e) (appended.push entry)).total =
          entry.bound := by
        simp [total_patched]
      have hmore : ∀ more : List (TableEntry F),
          appended.push entry ++ more.toArray = appended ++ (entry :: more).toArray := by
        intro more
        simp
      dsimp only [Option.elim_some]
      rw [ih hpositions, htotal]
      dsimp only
      rw [hmore, List.length_cons, Nat.add_right_comm, Nat.add_assoc]

/-- What patching an intact table gives. -/
theorem Intact.perturb_eq (h : Intact base) (s : Spectrum F) (touched : List F) :
    base.perturb s touched =
      let more := appendedEntries base.weighing s base.total touched
      .ok (base.patched (touched.foldl base.invalidatedBy []) more.toArray, more.length) := by
  have hperturb := h.foldlM_perturbOne (positions_nil base) #[] s touched 0
  rw [h.patched_nil] at hperturb
  rw [perturb, hperturb]
  simp

theorem perturb_congr {s' : Spectrum F} (h : ∀ e, s.level? e = s'.level? e) (touched : List F) :
    t.perturb s touched = t.perturb s' touched := by
  have hstep : perturbOne s = perturbOne s' := by
    funext current e
    rw [perturbOne, perturbOne, h]
  rw [perturb, perturb, hstep]

theorem of_mem_patched {entry : TableEntry F}
    (hmem : entry ∈ (base.patched invalid appended).entries) (hvalid : entry.valid = true) :
    (∃ i built, base.entries[i]? = some built ∧ i ∉ invalid ∧ built.energy = entry.energy) ∨
      entry ∈ appended := by
  rcases Array.mem_append.1 hmem with hmem | hmem
  · left
    obtain ⟨i, hi⟩ := Array.mem_iff_getElem?.1 hmem
    rw [marked, Array.getElem?_mapIdx] at hi
    obtain ⟨built, hbuilt, rfl⟩ := Option.map_eq_some_iff.1 hi
    exact ⟨i, built, hbuilt, by simpa using hvalid, rfl⟩
  · exact Or.inr hmem

theorem Positions.foldlM_revalidate (h : Positions base invalid) :
    invalid.foldlM revalidate (marked base.entries invalid) =
      (.ok (marked base.entries []) : Checked F _) := by
  induction invalid with
  | nil => rfl
  | cons i invalid ih =>
    obtain ⟨hi, hnodup⟩ := List.nodup_cons.1 h.nodup
    have hlt := h.lt i List.mem_cons_self
    have hentry : base.entries[i]? = some base.entries[i] := Array.getElem?_eq_getElem hlt
    have hmarked := setIfInBounds_marked hentry (i :: invalid) invalid fun j hj => by simp [hj]
    have hstep : revalidate (marked base.entries (i :: invalid)) i =
        (.ok (marked base.entries invalid) : Checked F _) := by
      rw [revalidate, fetch, marked, Array.getElem?_mapIdx, hentry, ← marked, ← hmarked,
        decide_eq_true hi]
      rfl
    rw [List.foldlM_cons, hstep]
    exact ih ⟨hnodup, fun j hj => h.lt j (List.mem_cons_of_mem i hj)⟩

/-- Restoring a patched table gives the intact one back. -/
theorem Intact.restore_patched (h : Intact base) (hinvalid : Positions base invalid)
    (appended : Array (TableEntry F)) : (base.patched invalid appended).restore = .ok base := by
  have htake : (base.patched invalid appended).entries.take
      (base.patched invalid appended).builtSize = marked base.entries invalid := by
    change (marked base.entries invalid ++ appended).take base.builtSize = _
    rw [h.builtSize_eq, ← size_marked base.entries invalid]
    simp
  rw [restore, htake]
  change (invalid.foldlM revalidate _ >>= _) = _
  rw [hinvalid.foldlM_revalidate, marked_nil h.valid]
  change Except.ok _ = Except.ok _
  have hinvalidated := h.invalidated_eq
  have hvalid := h.valid_eq
  cases base
  simp_all [patched]

/-! ## Tables of filed labels -/

/-- The table is intact, and all of its entries are at energies of some labels. -/
structure Serves (t : BoltzmannTable F) (labels : Set Nat) (energy : Nat → F) : Prop where
  intact : Intact t
  exists_label : ∀ entry ∈ t.entries, ∃ label ∈ labels, order entry.energy (energy label) = .eq

theorem Serves.enterSteepest {labels : Set Nat} {energy : Nat → F} (h : Serves t labels energy) :
    Serves t.enterSteepest labels energy := ⟨h.intact.enterSteepest, h.exists_label⟩

theorem serves_build {labels : Set Nat} {energy : Nat → F} (h : s.Files labels energy)
    (degree : Nat) (strength temperature shift : F) :
    Serves (build s degree strength temperature shift) labels energy := by
  obtain ⟨hintact, hentries⟩ := intact_build s degree strength temperature shift
  refine ⟨hintact, fun entry hentry => ?_⟩
  obtain ⟨level, hmem, hlevel⟩ := hentries entry hentry
  rw [← hlevel]
  exact h.exists_level_iff.1 ⟨level.2, Spectrum.level?_of_mem_toList hmem⟩

/-! ## Drawing -/

/-- A draw from a table that has entries, if it has valid ones, does not fault and meets valid
entries only. -/
theorem yields_drawWithin {R : Type} [RandomSource R] (ht : 0 < t.entries.size) (tries : Nat)
    (r : R) :
    Yields (t.drawWithin tries r) fun drawn => ∀ e, drawn.1 = some e →
      ∃ entry ∈ t.entries, entry.valid = true ∧ entry.energy = e := by
  induction tries generalizing r with
  | zero => exact yields_ok fun e he => by cases he
  | succ tries ih =>
    rw [drawWithin]
    obtain ⟨u, r'⟩ := (RandomSource.unit r : F × R)
    dsimp only
    have hlt : t.landing (u * t.span) < t.entries.size := by
      simp only [landing]
      omega
    rw [Array.getElem?_eq_getElem hlt]
    dsimp only
    split
    · rename_i hvalid
      refine yields_ok fun e he => ?_
      cases he
      exact ⟨_, Array.getElem_mem hlt, hvalid, rfl⟩
    · exact ih r'

theorem yields_draw {R : Type} [RandomSource R] (ht : t.valid ≤ t.entries.size) (r : R) :
    Yields (t.draw r) fun drawn => ∀ e, drawn.1 = some e →
      ∃ entry ∈ t.entries, entry.valid = true ∧ entry.energy = e := by
  rw [draw]
  split
  · exact yields_ok fun e he => by cases he
  · rename_i hvalid
    rw [if_neg (by omega)]
    exact yields_drawWithin (by omega) maxTries r

end Potts.BoltzmannTable
