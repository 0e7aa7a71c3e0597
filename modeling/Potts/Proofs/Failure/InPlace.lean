import Potts.Proofs.Failure.Checked

/-!
# Changes in place

A record that is changed in place is changed step by step, and if one of the steps faults, what the
steps before it have changed stays changed. `Performs` says that the steps cannot be told from one
change: they come to what it comes to, and where it faults they leave the record as it was.
-/

namespace Potts

/-- A computation that changes a record in place; a fault keeps what was changed before it. -/
abbrev InPlace (F σ α : Type) := ExceptT (Fault F) (StateM σ) α

namespace InPlace

variable {F σ α β : Type} {x : InPlace F σ Unit} {a : σ} {r : Checked F σ}

/-- A value that the steps go on with, or a fault. -/
def check (r : Checked F α) : InPlace F σ α := ExceptT.mk (pure r)

/-- The steps, made on a record, change it into the value of a computation; if that faults, so do
they, and nothing has been changed. -/
def Performs (x : InPlace F σ Unit) (a : σ) (r : Checked F σ) : Prop :=
  x.run.run a = match r with
    | .ok b => (.ok (), b)
    | .error fault => (.error fault, a)

theorem run_bind (x : InPlace F σ α) (f : α → InPlace F σ β) (a : σ) :
    (x >>= f).run.run a = match x.run.run a with
      | (.ok b, a') => (f b).run.run a'
      | (.error fault, a') => (.error fault, a') := by
  rw [ExceptT.run_bind, StateT.run_bind]
  cases x.run.run a with
  | mk b a' => cases b <;> rfl

@[simp]
theorem run_check (r : Checked F α) (a : σ) : (check r : InPlace F σ α).run.run a = (r, a) := rfl

@[simp]
theorem run_get (a : σ) : (get : InPlace F σ σ).run.run a = (.ok a, a) := rfl

@[simp]
theorem run_modify (f : σ → σ) (a : σ) :
    (modify f : InPlace F σ Unit).run.run a = (.ok (), f a) := rfl

theorem performs_modify (f : σ → σ) (a : σ) :
    Performs (modify f : InPlace F σ Unit) a (.ok (f a)) := rfl

theorem Performs.bind_modify (h : Performs x a r) (f : σ → σ) :
    Performs (x >>= fun _ => modify f) a (r >>= fun b => pure (f b)) := by
  cases r with
  | ok b =>
    have hx : x.run.run a = (.ok (), b) := h
    change (x >>= fun _ => modify f).run.run a = (.ok (), f b)
    rw [run_bind, hx]
    rfl
  | error fault =>
    have hx : x.run.run a = (.error fault, a) := h
    change (x >>= fun _ => modify f).run.run a = (.error fault, a)
    rw [run_bind, hx]

end InPlace

end Potts
