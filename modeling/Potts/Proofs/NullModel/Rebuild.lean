import Potts.Proofs.NullModel.Expectation
import Potts.Proofs.NullModel.Follows
import Potts.Proofs.Scalar.Real

/-!
# Updates answer as a rebuild

`afterMoves` builds a null model and lets vertices move, one after the other. No move faults, and
the model expects what the model built from the last labels expects; so the labels alone decide what
it expects, whatever moves have led to them. The independent and the uncorrelated model keep whole
numbers, and for them this holds for any meaning of the arithmetic. The correlated model keeps sums
of numbers that are rounded, and there it holds in exact arithmetic.

The proof names what a model keeps of its labels (`Keeps`): a property that built models have and
that every move hands on (`Persists`), and that decides what the model expects.
-/

namespace Potts.NullModel

open Checked

variable {F : Type} [Scalar F]

/-- A vertex moves from the label that it holds to another one, and the model is updated. -/
def move (net : Network F) (current : NullModel F × List Nat) (move : Nat × Nat) :
    Checked F (NullModel F × List Nat) := do
  let source ← Checked.expect .outOfRange current.2[move.1]?
  let m ← current.1.update (net.degree move.1) source move.2
  return (m, current.2.set move.1 move.2)

/-- The labels after moves, each a vertex with its new label. -/
def movedLabels (labels : List Nat) (moves : List (Nat × Nat)) : List Nat :=
  moves.foldl (fun labels move => labels.set move.1 move.2) labels

/-- The model of labels that are built once, after moves. -/
def afterMoves (kind : Kind) (net : Network F) (labels : List Nat) (moves : List (Nat × Nat)) :
    Checked F (NullModel F) := do
  let m ← ofLabels kind net labels
  let last ← moves.foldlM (move net) (m, labels)
  return last.1

/-- A property of a model and its labels that models of this kind are built with and that moves hand
on. -/
structure Persists (kind : Kind) (net : Network F) (Inv : NullModel F → List Nat → Prop) :
    Prop where
  ofLabels : ∀ labels, labels.length = net.size →
    Yields (NullModel.ofLabels kind net labels) (Inv · labels)
  update : ∀ (m : NullModel F) (labels : List Nat) (v source target : Nat), Inv m labels →
    labels[v]? = some source →
      Yields (m.update (net.degree v) source target) (Inv · (labels.set v target))

/-- A property that persists and decides what a model expects. -/
structure Keeps (kind : Kind) (net : Network F) (Inv : NullModel F → List Nat → Prop) : Prop
    extends Persists kind net Inv where
  expected_eq : ∀ (m m' : NullModel F) (labels : List Nat), Inv m labels → Inv m' labels →
    ∀ degree label, m.expected degree label = m'.expected degree label

theorem persists_follows (kind : Kind) (net : Network F) :
    Persists kind net fun m labels => m.kind = kind ∧ Follows net m labels where
  ofLabels _ hlabels := yields_ofLabels kind hlabels
  update _ _ _ _ target h hv :=
    (h.2.yields_update hv target).mono fun _ hm' => ⟨hm'.1.trans h.1, hm'.2.1⟩

theorem keeps_independent (net : Network F) :
    Keeps .independent net fun m labels => m.kind = .independent ∧ Follows net m labels where
  toPersists := persists_follows .independent net
  expected_eq m m' labels h h' degree label := by
    cases m <;> cases h.1
    cases m' <;> cases h'.1
    rename_i m m'
    change m.expected label = m'.expected label
    rw [Independent.Follows.expected_eq h.2, Independent.Follows.expected_eq h'.2]

theorem keeps_uncorrelated (net : Network F) :
    Keeps .uncorrelated net fun m labels => m.kind = .uncorrelated ∧ Follows net m labels where
  toPersists := persists_follows .uncorrelated net
  expected_eq m m' labels h h' degree label := by
    cases m <;> cases h.1
    cases m' <;> cases h'.1
    rename_i m m'
    change m.expected degree label = m'.expected degree label
    rw [Uncorrelated.Follows.expected_eq h.2, Uncorrelated.Follows.expected_eq h'.2]

section Exact

variable {K : Type} [ExactScalar K]

/-- The rows of a correlated model are sums; the other kinds have none. -/
def Summed (m : NullModel K) : Prop :=
  match m with
  | .correlated m => m.Summed
  | .independent _ | .uncorrelated _ => True

theorem summed_of_ne {m : NullModel K} (h : m.kind ≠ .correlated) : Summed m := by
  cases m with
  | independent | uncorrelated => exact trivial
  | correlated => exact absurd rfl h

theorem persists_summed (kind : Kind) (net : Network K) :
    Persists kind net fun m labels => m.kind = kind ∧ Follows net m labels ∧ Summed m where
  ofLabels labels hlabels := by
    by_cases hkind : kind = .correlated
    · subst hkind
      exact (Correlated.yields_ofLabels hlabels).map fun c hc =>
        ⟨rfl, hc.1, Correlated.summed_of_rows_eq hc.2⟩
    · refine (yields_ofLabels kind hlabels).mono fun m hm => ⟨hm.1, hm.2, ?_⟩
      exact summed_of_ne (hm.1 ▸ hkind)
  update m labels v source target h hv := by
    obtain ⟨hkind, hfollows, hsummed⟩ := h
    cases m with
    | correlated c =>
      have hfollows : Correlated.Follows net c labels := hfollows
      refine (hfollows.yields_update hv target).map fun c' hc' => ⟨hkind, hc'.1, ?_⟩
      exact Correlated.Summed.update hsummed hfollows hc'.1 hv hc'.2
    | independent m | uncorrelated m =>
      refine (hfollows.yields_update hv target).mono fun m' hm' => ⟨hm'.1.trans hkind, hm'.2.1, ?_⟩
      refine summed_of_ne fun hcorrelated => ?_
      cases hm'.1.symm.trans hcorrelated

theorem keeps_correlated (net : Network K) :
    Keeps .correlated net fun m labels =>
      m.kind = .correlated ∧ Follows net m labels ∧ Summed m where
  toPersists := persists_summed .correlated net
  expected_eq m m' labels h h' degree label := by
    cases m <;> cases h.1
    cases m' <;> cases h'.1
    exact Correlated.Follows.expected_unique h.2.1 h'.2.1 h.2.2 h'.2.2 degree label

end Exact

theorem exists_keeps (kind : Kind) (net : Network F)
    (hexact : kind = .correlated → Scalar.IsExact F) : ∃ Inv, Keeps kind net Inv := by
  cases kind with
  | independent => exact ⟨_, keeps_independent net⟩
  | uncorrelated => exact ⟨_, keeps_uncorrelated net⟩
  | correlated =>
    obtain ⟨exact, rfl⟩ := hexact rfl
    exact ⟨_, keeps_correlated net⟩

theorem length_movedLabels (labels : List Nat) (moves : List (Nat × Nat)) :
    (movedLabels labels moves).length = labels.length := by
  induction moves generalizing labels with
  | nil => rfl
  | cons mv moves ih => rw [movedLabels, List.foldl_cons, ← movedLabels, ih, List.length_set]

variable {kind : Kind} {net : Network F} {Inv : NullModel F → List Nat → Prop}

theorem Persists.yields_move (h : Persists kind net Inv) {m : NullModel F} {labels : List Nat}
    (hlabels : labels.length = net.size) (hm : Inv m labels) {mv : Nat × Nat}
    (hmv : mv.1 < net.size) :
    Yields (move net (m, labels) mv) fun next =>
      next.2 = labels.set mv.1 mv.2 ∧ Inv next.1 next.2 := by
  have hsource : labels[mv.1]? = some labels[mv.1] := List.getElem?_eq_getElem (hlabels ▸ hmv)
  refine (yields_expect hsource rfl).bind fun source hs => ?_
  refine (h.update m labels mv.1 source mv.2 hm (by rw [hsource, hs])).bind fun m' hm' => ?_
  exact yields_pure ⟨rfl, hm'⟩

/-- Moves hand on what persists. -/
theorem Persists.yields_moves (h : Persists kind net Inv) {m : NullModel F} {labels : List Nat}
    (hlabels : labels.length = net.size) (hm : Inv m labels) {moves : List (Nat × Nat)}
    (hmoves : ∀ move ∈ moves, move.1 < net.size) :
    Yields (moves.foldlM (move net) (m, labels)) fun last =>
      last.2 = movedLabels labels moves ∧ Inv last.1 last.2 := by
  induction moves generalizing m labels with
  | nil => exact yields_pure ⟨rfl, hm⟩
  | cons mv moves ih =>
    rw [List.foldlM_cons]
    refine (h.yields_move hlabels hm (hmoves mv List.mem_cons_self)).bind fun next hnext => ?_
    obtain ⟨m', labels'⟩ := next
    obtain ⟨rfl, hm'⟩ := hnext
    exact ih (by rw [List.length_set, hlabels]) hm' fun mv' hmv' =>
      hmoves mv' (List.mem_cons_of_mem mv hmv')

theorem Persists.yields_afterMoves (h : Persists kind net Inv) {labels : List Nat}
    (hlabels : labels.length = net.size) {moves : List (Nat × Nat)}
    (hmoves : ∀ move ∈ moves, move.1 < net.size) :
    Yields (afterMoves kind net labels moves) (Inv · (movedLabels labels moves)) := by
  refine (h.ofLabels labels hlabels).bind fun m hm => ?_
  refine (h.yields_moves hlabels hm hmoves).bind fun last hlast => yields_pure ?_
  rw [← hlast.1]
  exact hlast.2

/-- After any moves a null model expects what the model built from the last labels expects, and so
does it after any other moves to the same labels. Neither building nor moving faults. -/
theorem expected_afterMoves (kind : Kind) (net : Network F)
    (hexact : kind = .correlated → Scalar.IsExact F) {labels : List Nat}
    (hlabels : labels.length = net.size) {moves : List (Nat × Nat)}
    (hmoves : ∀ move ∈ moves, move.1 < net.size) :
    ∃ m rebuilt, afterMoves kind net labels moves = .ok m ∧
      ofLabels kind net (movedLabels labels moves) = .ok rebuilt ∧
      (∀ degree label, m.expected degree label = rebuilt.expected degree label) ∧
      ∀ labels' moves', labels'.length = net.size → (∀ move ∈ moves', move.1 < net.size) →
        movedLabels labels' moves' = movedLabels labels moves →
          ∃ m', afterMoves kind net labels' moves' = .ok m' ∧
            ∀ degree label, m'.expected degree label = m.expected degree label := by
  obtain ⟨Inv, h⟩ := exists_keeps kind net hexact
  obtain ⟨m, hm, hInv⟩ := h.yields_afterMoves hlabels hmoves
  have hlength : (movedLabels labels moves).length = net.size := by
    rw [length_movedLabels, hlabels]
  obtain ⟨rebuilt, hrebuilt, hInv'⟩ := h.ofLabels _ hlength
  refine ⟨m, rebuilt, hm, hrebuilt, h.expected_eq m rebuilt _ hInv hInv', ?_⟩
  intro labels' moves' hlabels' hmoves' hsame
  obtain ⟨m', hm', hInv''⟩ := h.yields_afterMoves hlabels' hmoves'
  rw [hsame] at hInv''
  exact ⟨m', hm', h.expected_eq m' m _ hInv'' hInv⟩

theorem expected_afterMoves_path :
    ∃ m rebuilt, afterMoves .correlated Network.path [0, 1, 0] [(1, 0), (1, 1)] = .ok m ∧
      ofLabels .correlated Network.path [0, 1, 0] = .ok rebuilt ∧
      ∀ degree label, m.expected degree label = rebuilt.expected degree label := by
  have hlabels : [0, 1, 0].length = Network.path.size := rfl
  have hmoves : ∀ move ∈ [(1, 0), (1, 1)], move.1 < Network.path.size := by
    change ∀ move ∈ [(1, 0), (1, 1)], move.1 < 3
    decide
  obtain ⟨m, rebuilt, hm, hrebuilt, hexpected, -⟩ := expected_afterMoves .correlated Network.path
    (fun _ => Scalar.isExact) hlabels hmoves
  exact ⟨m, rebuilt, hm, hrebuilt, hexpected⟩

end Potts.NullModel
