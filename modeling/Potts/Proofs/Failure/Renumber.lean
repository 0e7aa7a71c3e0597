import Potts.Failure.Fault

/-!
# Errors about edges in another list

An error about a weight names the edge by its place in the list that was given. `renumber` turns it
into the error about the same edge in another list, and leaves all other failures as they are.
Renaming the errors of a computation renames those of its steps.
-/

namespace Potts

section Except

variable {ε ε' α β : Type} (f : ε → ε')

theorem mapError_bind (x : Except ε α) (k : α → Except ε β) :
    (x >>= k).mapError f = x.mapError f >>= fun a => (k a).mapError f := by
  cases x <;> rfl

theorem mapError_mapM (k : α → Except ε β) (l : List α) :
    (l.mapM k).mapError f = l.mapM fun a => (k a).mapError f := by
  induction l with
  | nil => rfl
  | cons a l ih =>
    rw [List.mapM_cons, List.mapM_cons, mapError_bind]
    refine congrArg _ (funext fun b => ?_)
    rw [mapError_bind, ih]
    rfl

theorem mapError_id (x : Except ε α) : x.mapError id = x := by
  cases x <;> rfl

end Except

variable {F α : Type}

/-- The error about the same edge in a list where the edge `i` stands at `place i`. -/
def Error.renumber (place : Nat → Nat) : Error F → Error F
  | .invalidWeight edge value => .invalidWeight (place edge) value
  | e => e

theorem Error.renumber_id : Error.renumber (F := F) id = id := by
  funext e
  cases e <;> rfl

namespace Failure

/-- The failure with its error renumbered. -/
def renumber (place : Nat → Nat) : Failure F → Failure F
  | .error e => .error (e.renumber place)
  | .fault f => .fault f

theorem renumber_id : renumber (F := F) id = id := by
  funext f
  cases f with
  | error e => exact congrArg Failure.error (congrFun Error.renumber_id e)
  | fault f => rfl

theorem mapError_ofError (place : Nat → Nat) (x : Except (Error F) α) :
    (ofError x).mapError (renumber place) = ofError (x.mapError (Error.renumber place)) := by
  cases x <;> rfl

theorem ofError_injective {x y : Except (Error F) α} (h : ofError x = ofError y) : x = y := by
  cases x <;> cases y <;> cases h <;> rfl

/-- An answer that stays as it is however the edges are renumbered names no edge. -/
theorem ne_invalidWeight {answer : Except (Failure F) α}
    (h : ∀ place : Nat → Nat, answer.mapError (renumber place) = answer) (i : Nat) (x : F) :
    answer ≠ .error (.error (.invalidWeight i x)) := by
  rintro rfl
  have hsucc : (.error (.error (.invalidWeight (i + 1) x)) : Except (Failure F) α) =
      .error (.error (.invalidWeight i x)) := h Nat.succ
  simp only [Except.error.injEq, error.injEq, Error.invalidWeight.injEq] at hsucc
  omega

theorem mapError_ofFault (place : Nat → Nat) (x : Checked F α) :
    (ofFault x).mapError (renumber place) = ofFault x := by
  cases x <;> rfl

end Failure

end Potts
