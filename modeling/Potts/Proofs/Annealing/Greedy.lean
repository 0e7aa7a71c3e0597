import Potts.Proofs.Annealing.Synchrony

/-!
# Greedy proposals

A vertex proposes greedily when it takes the least energy of its spectrum instead of a draw. It says
so in its proposal, and the table of its class remembers it for the rest of the sweep. Since every
class has a vertex, a table that has no weight from the start makes some vertex greedy too; so after
all vertices have chosen, some table remembers a greedy proposal exactly when there was one.
-/

namespace Potts.Annealing

open Checked Scalar

variable {F R : Type} [Scalar F] {setting : Setting F} {state : State F R}
  {table : BoltzmannTable F} {p : Patch F} {temperature : F} {v : Nat}

/-! ## One proposal -/

/-- The least energy is taken: there is nothing to draw from, or the draw fails. -/
def Patch.TakesLeast [RandomSource R] (p : Patch F) (r : R) : Prop :=
  p.isGreedy = true ∨ ∃ r', p.table.draw r = .ok (none, r')

theorem steepest_chooseEnergy [RandomSource R] {least : F} {r : R}
    {chosen : F × BoltzmannTable F × R} (h : chooseEnergy p least r = .ok chosen) :
    chosen.2.1.steepest = true ↔ p.TakesLeast r := by
  rw [chooseEnergy] at h
  split at h
  · rename_i hgreedy
    cases h
    exact ⟨fun _ => Or.inl hgreedy, fun _ => rfl⟩
  · rename_i hgreedy
    obtain ⟨⟨drawn, r'⟩, hdrawn, h⟩ := bind_eq_ok.1 h
    cases drawn with
    | none =>
      cases h
      exact ⟨fun _ => Or.inr ⟨r', hdrawn⟩, fun _ => rfl⟩
    | some energy =>
      cases h
      constructor
      · intro hsteepest
        refine absurd ?_ hgreedy
        rw [Patch.isGreedy, hsteepest, Bool.true_or]
      · rintro (hleast | ⟨r'', hnone⟩)
        · exact absurd hleast hgreedy
        · rw [hdrawn] at hnone
          cases hnone

theorem steepest_restore {table' : BoltzmannTable F} (h : table.restore = .ok table') :
    table'.steepest = table.steepest := by
  obtain ⟨entries, -, h⟩ := bind_eq_ok.1 h
  cases h
  rfl

theorem exists_patch_of_propose [RandomSource R]
    {out : Proposal F × State F R × BoltzmannTable F}
    (h : propose setting state v table = .ok out) :
    ∃ p, patch setting state v table = .ok p ∧ out.1.steepest = out.2.2.steepest ∧
      (out.2.2.steepest = true ↔ p.TakesLeast state.source) := by
  obtain ⟨p, least, energy, chosen, source, level, label, hp, -, hchosen, -, -, hrestore, hout⟩ :=
    exists_of_propose h
  refine ⟨p, hp, by rw [hout], ?_⟩
  rw [steepest_restore hrestore]
  exact steepest_chooseEnergy hchosen

theorem Consistent.takesLeast_of_steepest [RandomSource R] (h : Consistent setting state)
    (hv : v < setting.network.size) (htable : table.Intact)
    (hp : patch setting state v table = .ok p) (hsteepest : table.steepest = true) (r : R) :
    p.TakesLeast r := by
  obtain ⟨q, hq, hpatched⟩ := h.yields_patch hv htable
  rw [hp] at hq
  cases hq
  have hkept : p.table.steepest = table.steepest := by
    rw [hpatched.table_eq htable]
    rfl
  refine Or.inl ?_
  rw [Patch.isGreedy, hkept, hsteepest, Bool.true_or]

theorem Consistent.steepest_of_propose [RandomSource R] (h : Consistent setting state)
    (hv : v < setting.network.size) (htable : table.Intact)
    {out : Proposal F × State F R × BoltzmannTable F}
    (hout : propose setting state v table = .ok out) (hsteepest : table.steepest = true) :
    out.2.2.steepest = true := by
  obtain ⟨p, hp, -, htakes⟩ := exists_patch_of_propose hout
  exact htakes.2 (h.takesLeast_of_steepest hv htable hp hsteepest _)

/-! ## The proposals of a sweep -/

/-- A vertex proposes greedily in a sweep: after the vertices before it have chosen, it takes the
least energy. -/
def ProposesGreedily [RandomSource R] (setting : Setting F) (state : State F R) (temperature : F)
    (v : Nat) : Prop :=
  ∃ (choices : Choices F R) (c : Nat) (table : BoltzmannTable F) (p : Patch F),
    (List.range v).foldlM (chooseNext setting)
      ⟨(buildTables setting state.index temperature).toArray, state, []⟩ = .ok choices ∧
    setting.classOf[v]? = some c ∧ choices.tables[c]? = some table ∧
    patch setting choices.state v table = .ok p ∧ p.TakesLeast choices.state.source

/-- The first `count` vertices have chosen, and the tables and the proposals remember which of them
were greedy. -/
structure Flagged [RandomSource R] (setting : Setting F) (state : State F R) (temperature : F)
    (count : Nat) (choices : Choices F R) : Prop where
  choices_eq : (List.range count).foldlM (chooseNext setting)
    ⟨(buildTables setting state.index temperature).toArray, state, []⟩ = .ok choices
  choosing : Choosing setting state temperature choices
  of_steepest : ∀ (c : Nat) (table : BoltzmannTable F), choices.tables[c]? = some table →
    table.steepest = true →
      (∃ built, (buildTables setting state.index temperature)[c]? = some built ∧
        built.steepest = true) ∨
      ∃ v < count, ProposesGreedily setting state temperature v
  exists_steepest : ∀ v < count, ProposesGreedily setting state temperature v →
    ∃ (c : Nat) (table : BoltzmannTable F), choices.tables[c]? = some table ∧
      table.steepest = true
  proposals_iff : ∀ choice ∈ choices.proposals,
    (choice.2.steepest = true ↔ ProposesGreedily setting state temperature choice.1)

theorem proposesGreedily_iff [RandomSource R] {choices : Choices F R} {c : Nat}
    (hchoices : (List.range v).foldlM (chooseNext setting)
      ⟨(buildTables setting state.index temperature).toArray, state, []⟩ = .ok choices)
    (hc : setting.classOf[v]? = some c) (htable : choices.tables[c]? = some table)
    (hp : patch setting choices.state v table = .ok p) :
    ProposesGreedily setting state temperature v ↔ p.TakesLeast choices.state.source := by
  constructor
  · rintro ⟨choices', c', table', p', hsame, hc', htable', hp', hleast⟩
    rw [hchoices] at hsame
    cases hsame
    rw [hc] at hc'
    cases hc'
    rw [htable] at htable'
    cases htable'
    rw [hp] at hp'
    cases hp'
    exact hleast
  · exact fun hleast => ⟨choices, c, table, p, hchoices, hc, htable, hp, hleast⟩

theorem exists_steepest_setIfInBounds {tables : Array (BoltzmannTable F)} {c : Nat}
    {table' : BoltzmannTable F} (htable : tables[c]? = some table)
    (hkept : table.steepest = true → table'.steepest = true)
    (h : ∃ (i : Nat) (t : BoltzmannTable F), tables[i]? = some t ∧ t.steepest = true) :
    ∃ (i : Nat) (t : BoltzmannTable F), (tables.setIfInBounds c table')[i]? = some t ∧
      t.steepest = true := by
  obtain ⟨i, t, hi, hsteepest⟩ := h
  by_cases hci : c = i
  · subst hci
    obtain ⟨hlt, -⟩ := Array.getElem?_eq_some_iff.1 htable
    rw [htable] at hi
    cases hi
    exact ⟨c, table', Array.getElem?_setIfInBounds_self_of_lt hlt, hkept hsteepest⟩
  · exact ⟨i, t, by rw [Array.getElem?_setIfInBounds_ne hci, hi], hsteepest⟩

theorem Consistent.yields_flagged [RandomSource R] (h : Consistent setting state)
    {choices : Choices F R} (hchoices : Flagged setting state temperature v choices)
    (hv : v < setting.network.size) :
    Yields (chooseNext setting choices v) (Flagged setting state temperature (v + 1)) := by
  obtain ⟨next, hnext, hchoosing⟩ := h.yields_chooseNext hchoices.choosing hv
  obtain ⟨c, table, ⟨proposal, state', table'⟩, hc, -, htable, hserves, hpropose, rfl⟩ :=
    h.exists_of_chooseNext hchoices.choosing.tables hv hnext
  obtain ⟨p, hp, hproposal, htakes⟩ := exists_patch_of_propose hpropose
  dsimp only at hproposal htakes
  have hgreedy : ProposesGreedily setting state temperature v ↔ table'.steepest = true := by
    rw [htakes, proposesGreedily_iff hchoices.choices_eq hc htable hp]
  have hkept : table.steepest = true → table'.steepest = true :=
    (h.of_choosing hchoices.choosing).steepest_of_propose hv hserves.intact hpropose
  obtain ⟨hlt, -⟩ := Array.getElem?_eq_some_iff.1 htable
  -- Only the table of the class of `v` is replaced. If it had switched, so has the new one.
  refine ⟨_, hnext, ?_, hchoosing, fun i t hi hsteepest => ?_, fun u hu hugreedy => ?_,
    fun choice hchoice => ?_⟩
  · rw [List.range_succ, List.foldlM_append, hchoices.choices_eq]
    change chooseNext setting choices v >>= _ = _
    rw [hnext]
    rfl
  · by_cases hci : c = i
    · subst hci
      rw [Array.getElem?_setIfInBounds_self_of_lt hlt] at hi
      cases hi
      exact Or.inr ⟨v, by omega, hgreedy.2 hsteepest⟩
    · rw [Array.getElem?_setIfInBounds_ne hci] at hi
      refine (hchoices.of_steepest i t hi hsteepest).imp_right ?_
      rintro ⟨u, hu, hugreedy⟩
      exact ⟨u, by omega, hugreedy⟩
  · by_cases huv : u < v
    · exact exists_steepest_setIfInBounds htable hkept (hchoices.exists_steepest u huv hugreedy)
    · obtain rfl : u = v := by omega
      exact ⟨c, table', Array.getElem?_setIfInBounds_self_of_lt hlt, hgreedy.1 hugreedy⟩
  · rcases List.mem_cons.1 hchoice with rfl | hchoice
    · rw [hgreedy, hproposal]
    · exact hchoices.proposals_iff choice hchoice

theorem Consistent.yields_choose_flagged [RandomSource R] (h : Consistent setting state)
    (temperature : F) :
    Yields (choose setting state (buildTables setting state.index temperature))
      (Flagged setting state temperature setting.network.size) := by
  refine Yields.foldlM_range (Flagged setting state temperature) ?_ fun v hv choices hchoices =>
    h.yields_flagged hchoices hv
  refine ⟨rfl, ⟨rfl, h.index, h.tables_build temperature, by simp⟩, fun c t ht hsteepest => ?_,
    by simp, by simp⟩
  rw [List.getElem?_toArray] at ht
  exact Or.inl ⟨t, ht, hsteepest⟩

theorem Consistent.exists_greedy_of_built [RandomSource R] (h : Consistent setting state)
    {c : Nat} {built : BoltzmannTable F}
    (hbuilt : (buildTables setting state.index temperature)[c]? = some built)
    (hsteepest : built.steepest = true) :
    ∃ v < setting.network.size, ProposesGreedily setting state temperature v := by
  have hlt : c < setting.network.degreeClasses.length := by
    obtain ⟨hlt, -⟩ := List.getElem?_eq_some_iff.1 hbuilt
    have hsize := (h.tables_build temperature).1
    rw [List.size_toArray] at hsize
    omega
  -- some vertex has the degree of the class
  obtain ⟨v, hv, hdegree⟩ :=
    (Network.mem_degreeClasses setting.network).1 (List.getElem_mem hlt)
  obtain ⟨c', hc', hclass⟩ := h.fits.class_eq v hv
  obtain ⟨hlt', hget⟩ := List.getElem?_eq_some_iff.1 hclass
  rw [hdegree, setting.network.nodup_degreeClasses.getElem_inj_iff] at hget
  subst hget
  have hvertices : ∀ u ∈ List.range v, u < setting.network.size := fun u hu =>
    (List.mem_range.1 hu).trans hv
  obtain ⟨choices, hchoices, hchoosing⟩ := h.yields_choices temperature hvertices
  obtain ⟨built', hbuilt', hkept⟩ := h.exists_built hchoosing.tables hclass
  rw [hbuilt] at hbuilt'
  cases hbuilt'
  obtain ⟨table, htable, hserves⟩ := h.serves_table hchoosing.tables hclass
  have htable' : table.steepest = true := by
    rw [htable] at hkept
    rcases hkept with hkept | hkept
    · rw [Option.some.inj hkept, hsteepest]
    · rw [Option.some.inj hkept]
      rfl
  have hconsistent := h.of_choosing hchoosing
  obtain ⟨p, hp, -⟩ := hconsistent.yields_patch hv hserves.intact
  exact ⟨v, hv, choices, c', table, p, hchoices, hc', htable, hp,
    hconsistent.takesLeast_of_steepest hv hserves.intact hp htable' _⟩

/-- After all vertices have chosen, some table has switched to the least energy exactly when some
vertex was greedy. -/
theorem Consistent.any_steepest_iff [RandomSource R] (h : Consistent setting state)
    {choices : Choices F R}
    (hchoices : Flagged setting state temperature setting.network.size choices) :
    choices.tables.any BoltzmannTable.steepest = true ↔
      ∃ v < setting.network.size, ProposesGreedily setting state temperature v := by
  rw [Array.any_eq_true']
  constructor
  · rintro ⟨table, hmem, hsteepest⟩
    obtain ⟨c, hc⟩ := Array.mem_iff_getElem?.1 hmem
    rcases hchoices.of_steepest c table hc hsteepest with ⟨built, hbuilt, hflag⟩ | hgreedy
    · exact h.exists_greedy_of_built hbuilt hflag
    · exact hgreedy
  · rintro ⟨v, hv, hgreedy⟩
    obtain ⟨c, table, hc, hsteepest⟩ := hchoices.exists_steepest v hv hgreedy
    exact ⟨table, Array.mem_of_getElem? hc, hsteepest⟩

end Potts.Annealing
