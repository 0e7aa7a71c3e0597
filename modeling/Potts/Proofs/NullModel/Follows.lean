import Potts.NullModel.Basic
import Potts.Proofs.NullModel.Correlated
import Potts.Proofs.NullModel.Tallied

/-!
# Null models follow the labels

One notion for all kinds: `Follows net m labels` says that the whole numbers of the model are those
of the labels. It holds of a model that is built from the labels, and a move of a vertex keeps it
without a fault and changes what is expected in the two labels of the move only.
-/

namespace Potts.NullModel

open Checked

variable {F : Type} [Scalar F] {net : Network F} {m : NullModel F} {labels : List Nat}
  {v source target : Nat}

/-- The model keeps the numbers of these labels. -/
def Follows (net : Network F) (m : NullModel F) (labels : List Nat) : Prop :=
  match m with
  | .independent m => Independent.Follows net m labels
  | .uncorrelated m => Uncorrelated.Follows net m labels
  | .correlated m => Correlated.Follows net m labels

theorem yields_ofLabels (kind : Kind) (hlabels : labels.length = net.size) :
    Yields (ofLabels kind net labels) fun m => m.kind = kind ∧ Follows net m labels := by
  cases kind with
  | independent =>
    change Yields (Except.ok _) _
    exact yields_ok ⟨rfl, Independent.follows_ofLabels net labels⟩
  | uncorrelated =>
    exact (Uncorrelated.yields_ofLabels hlabels.le).map fun m hm => ⟨rfl, hm⟩
  | correlated =>
    exact (Correlated.yields_ofLabels hlabels).map fun m hm => ⟨rfl, hm.1⟩

/-- A move of a vertex does not fault, and the model follows. -/
theorem Follows.yields_update (h : Follows net m labels) (hv : labels[v]? = some source)
    (target : Nat) :
    Yields (m.update (net.degree v) source target) fun m' =>
      m'.kind = m.kind ∧ Follows net m' (labels.set v target) ∧
      ∀ degree label, label ≠ source → label ≠ target →
        m'.expected degree label = m.expected degree label := by
  cases m with
  | independent m =>
    have h' : Independent.Follows net m labels := h
    refine (h'.yields_update hv target).map fun m' hm' => ⟨rfl, hm', ?_⟩
    intro degree label hsource htarget
    have hset := Partition.heldSum_set (fun _ => 1) hv target label
    rw [if_neg hsource, if_neg htarget, Partition.heldSum_one, Partition.heldSum_one] at hset
    change m'.expected label = m.expected label
    rw [hm'.expected_eq, h'.expected_eq, show (labels.set v target).count label = labels.count label
      from hset]
  | uncorrelated m =>
    have h' : Uncorrelated.Follows net m labels := h
    refine (h'.yields_update hv target).map fun m' hm' => ⟨rfl, hm', ?_⟩
    intro degree label hsource htarget
    have hset := Partition.heldSum_set net.degree hv target label
    rw [if_neg hsource, if_neg htarget] at hset
    change m'.expected degree label = m.expected degree label
    rw [hm'.expected_eq, h'.expected_eq, show Partition.heldSum net.degree (labels.set v target)
      label = Partition.heldSum net.degree labels label from hset]
  | correlated m =>
    have h' : Correlated.Follows net m labels := h
    refine (h'.yields_update hv target).map fun m' hm' => ⟨rfl, hm'.1, ?_⟩
    intro degree label hsource htarget
    exact h'.expected_of_ne hm'.1 hm'.2 hsource htarget degree

end Potts.NullModel
