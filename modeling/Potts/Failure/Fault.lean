import Potts.Failure.Error

/-!
# Faults

A fault is a broken assumption inside a computation: two redundant records disagree, or a position
lies outside of its list. The operations on those records say where they can fault; that no run does
is a property of the whole.
-/

namespace Potts

/-- A broken assumption. -/
inductive Fault (F : Type) where
  /-- A vertex leaves a label that no vertex holds. -/
  | unoccupied (label : Nat)
  /-- A label is not filed at the energy it is looked for. -/
  | unindexed (label : Nat) (energy : F)
  | outOfRange
  | underflow
  /-- A random number is drawn from no numbers. -/
  | emptyRange
  /-- A vertex has a degree that belongs to no degree class. -/
  | unclassified (degree : Nat)
  /-- A degree class has no energy level, or none at the energy that was drawn. -/
  | missingLevel
  deriving Repr

def Fault.message? : Fault Float → Option String
  | .unoccupied label => some s!"label {label} has no population"
  | .unindexed label energy => some s!"label {label} not indexed at energy {Decimal.plain energy}"
  | _ => none

/-- The result of a computation that can fault. -/
abbrev Checked (F α : Type) := Except (Fault F) α

namespace Checked

variable {F α : Type}

/-- The value of an option that is expected to hold one. -/
def expect (fault : Fault F) : Option α → Checked F α
  | some a => .ok a
  | none => .error fault

def fetch (a : Array α) (i : Nat) : Checked F α := expect .outOfRange a[i]?

/-- Change the element at a position, which has to be there, by a change that may fault. -/
def modifyM (a : Array α) (i : Nat) (f : α → Checked F α) : Checked F (Array α) := do
  let x ← fetch a i
  return a.setIfInBounds i (← f x)

/-- Change the element at a position, which has to be there. -/
def modify (a : Array α) (i : Nat) (f : α → α) : Checked F (Array α) := modifyM a i (pure ∘ f)

/-- The difference of two counts. -/
def sub (a b : Nat) : Checked F Nat := if a < b then .error .underflow else .ok (a - b)

end Checked

/-- Why a computation on a caller's input has no result. -/
inductive Failure (F : Type) where
  | error (e : Error F)
  | fault (f : Fault F)
  deriving Repr

namespace Failure

variable {F α : Type}

/-- The result of a check of the input, as a result that may also fault. -/
def ofError : Except (Error F) α → Except (Failure F) α
  | .ok a => .ok a
  | .error e => .error (.error e)

/-- The result of a computation that can fault, as a result that may also refuse its input. -/
def ofFault : Checked F α → Except (Failure F) α
  | .ok a => .ok a
  | .error f => .error (.fault f)

end Failure

end Potts
