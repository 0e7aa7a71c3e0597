import Potts.Failure.Fault

/-!
# Computations that do not fault

`Yields x P` says that the computation `x` has a value, and that the value has the property `P`.
Every operation that can fault is described by one such statement, and a computation that is made of
several steps is followed step by step with `Yields.bind`. `Yields.foldlM` is the rule for loops:
its invariant speaks of the part of the list that is done. `Matches` compares a computation with
another one that may fault as well.
-/

namespace Potts.Checked

variable {F α β : Type} {P : α → Prop} {Q : β → Prop}

/-- The computation has a value with this property. -/
def Yields (x : Checked F α) (P : α → Prop) : Prop := ∃ a, x = .ok a ∧ P a

theorem yields_ok {a : α} (h : P a) : Yields (.ok a : Checked F α) P := ⟨a, rfl, h⟩

theorem yields_pure {a : α} (h : P a) : Yields (pure a : Checked F α) P := ⟨a, rfl, h⟩

theorem ok_bind (a : α) (f : α → Checked F β) : ((.ok a : Checked F α) >>= f) = f a := rfl

theorem bind_eq_ok {x : Checked F α} {f : α → Checked F β} {b : β} :
    x >>= f = .ok b ↔ ∃ a, x = .ok a ∧ f a = .ok b := by
  cases x with
  | error fault =>
    constructor
    · intro h
      cases h
    · rintro ⟨a, ha, -⟩
      cases ha
  | ok a =>
    constructor
    · intro h
      exact ⟨a, rfl, h⟩
    · rintro ⟨a', ha, h⟩
      cases ha
      exact h

theorem ok_ne_error (a : α) (fault : Fault F) : (.ok a : Checked F α) ≠ .error fault := by
  intro h
  cases h

theorem bind_pure_eq_error_iff {x : Checked F α} {f : α → β} {fault : Fault F} :
    (x >>= fun a => pure (f a)) = .error fault ↔ x = .error fault := by
  cases x with
  | ok a => exact iff_of_false (ok_ne_error (f a) fault) (ok_ne_error a fault)
  | error fault' =>
    change (.error fault' : Checked F β) = .error fault ↔ _
    rw [Except.error.injEq, Except.error.injEq]

theorem Yields.of_eq_ok {x : Checked F α} (hx : Yields x P) {a : α} (h : x = .ok a) : P a := by
  obtain ⟨a', rfl, ha'⟩ := hx
  cases h
  exact ha'

theorem Yields.mono {P' : α → Prop} {x : Checked F α} (hx : Yields x P) (h : ∀ a, P a → P' a) :
    Yields x P' := by
  obtain ⟨a, hxa, ha⟩ := hx
  exact ⟨a, hxa, h a ha⟩

theorem Yields.bind {x : Checked F α} {f : α → Checked F β} (hx : Yields x P)
    (hf : ∀ a, P a → Yields (f a) Q) : Yields (x >>= f) Q := by
  obtain ⟨a, rfl, ha⟩ := hx
  exact hf a ha

theorem Yields.map {x : Checked F α} {f : α → β} (hx : Yields x P) (hf : ∀ a, P a → Q (f a)) :
    Yields (f <$> x) Q := by
  obtain ⟨a, rfl, ha⟩ := hx
  exact ⟨f a, rfl, hf a ha⟩

theorem yields_expect {fault : Fault F} {o : Option α} {a : α} (h : o = some a) (hP : P a) :
    Yields (expect fault o) P := ⟨a, by rw [h, expect], hP⟩

theorem expect_eq_ok {fault : Fault F} {o : Option α} {a : α} (h : expect fault o = .ok a) :
    o = some a := by
  cases o with
  | none => cases h
  | some b =>
    cases h
    rfl

theorem yields_fetch {a : Array α} {i : Nat} {x : α} (h : a[i]? = some x) (hP : P x) :
    Yields (fetch a i : Checked F α) P := yields_expect h hP

theorem fetch_eq_ok {a : Array α} {i : Nat} {x : α} (h : a[i]? = some x) :
    (fetch a i : Checked F α) = .ok x := by rw [fetch, h, expect]

theorem modifyM_eq_ok {a : Array α} {i : Nat} {f : α → Checked F α} {g : α → α} (hi : i < a.size)
    (hf : f a[i] = .ok (g a[i])) : modifyM a i f = .ok (a.modify i g) := by
  rw [modifyM, fetch_eq_ok (Array.getElem?_eq_getElem hi), ok_bind, hf, ok_bind]
  refine congrArg Except.ok (Array.ext_getElem? fun j => ?_)
  rw [Array.getElem?_setIfInBounds, Array.getElem?_modify]
  split
  · rename_i hij
    rw [← hij, Array.getElem?_eq_getElem hi, Option.map_some]
  · rfl

theorem modify_eq_ok {a : Array α} {i : Nat} (h : i < a.size) (f : α → α) :
    (modify a i f : Checked F (Array α)) = .ok (a.modify i f) := modifyM_eq_ok h rfl

theorem eq_modify_of_modify_eq_ok {a a' : Array α} {i : Nat} {f : α → α}
    (h : (modify a i f : Checked F (Array α)) = .ok a') : i < a.size ∧ a' = a.modify i f := by
  obtain ⟨x, hx, -⟩ := bind_eq_ok.1 h
  obtain ⟨hi, -⟩ := Array.getElem?_eq_some_iff.1 (expect_eq_ok hx)
  rw [modify_eq_ok hi] at h
  exact ⟨hi, (Except.ok.inj h).symm⟩

theorem sub_eq_ok {a b : Nat} (h : b ≤ a) : (sub a b : Checked F Nat) = .ok (a - b) :=
  if_neg (by omega)

theorem yields_sub {a b : Nat} {P : Nat → Prop} (h : b ≤ a) (hP : P (a - b)) :
    Yields (sub a b : Checked F Nat) P := ⟨a - b, sub_eq_ok h, hP⟩

/-- A loop keeps an invariant of the elements that are done if every one of its steps does. -/
theorem Yields.foldlM {f : β → α → Checked F β} (Inv : List α → β → Prop) {l : List α} {b : β}
    (h0 : Inv [] b)
    (hstep : ∀ done a rest b, l = done ++ a :: rest → Inv done b →
      Yields (f b a) (Inv (done ++ [a]))) :
    Yields (l.foldlM f b) (Inv l) := by
  -- the list is cut into a part that is done and a part that is to do
  have key : ∀ todo done b, l = done ++ todo → Inv done b → Yields (todo.foldlM f b) (Inv l) := by
    intro todo
    induction todo with
    | nil =>
      intro done b hl hb
      rw [hl, List.append_nil]
      exact yields_pure hb
    | cons a todo ih =>
      intro done b hl hb
      rw [List.foldlM_cons]
      refine (hstep done a todo b hl hb).bind fun b' hb' => ?_
      exact ih (done ++ [a]) b' (by rw [hl, List.append_assoc]; rfl) hb'
  exact key l [] b rfl h0

theorem Yields.foldlM_const {f : β → α → Checked F β} {l : List α} {b : β} (h0 : Q b)
    (hstep : ∀ a ∈ l, ∀ b, Q b → Yields (f b a) Q) : Yields (l.foldlM f b) Q := by
  refine Yields.foldlM (fun _ => Q) h0 fun done a rest b hl hb => ?_
  exact hstep a (by rw [hl]; simp) b hb

theorem Yields.foldlM_range {f : β → Nat → Checked F β} (Inv : Nat → β → Prop) {n : Nat} {b : β}
    (h0 : Inv 0 b) (hstep : ∀ i < n, ∀ b, Inv i b → Yields (f b i) (Inv (i + 1))) :
    Yields ((List.range n).foldlM f b) (Inv n) := by
  induction n with
  | zero => exact yields_pure h0
  | succ n ih =>
    rw [List.range_succ, List.foldlM_append]
    refine (ih fun i hi => hstep i (by omega)).bind fun b' hb' => ?_
    rw [List.foldlM_cons]
    exact (hstep n (by omega) b' hb').bind fun b'' hb'' => yields_pure hb''

theorem of_foldlM_eq_ok {f : β → α → Checked F β} {l : List α} {b b' : β}
    (h : l.foldlM f b = .ok b') (h0 : Q b)
    (hstep : ∀ a ∈ l, ∀ b b', Q b → f b a = .ok b' → Q b') : Q b' := by
  induction l generalizing b with
  | nil =>
    cases h
    exact h0
  | cons a l ih =>
    rw [List.foldlM_cons] at h
    obtain ⟨b₁, hb₁, h⟩ := bind_eq_ok.1 h
    exact ih h (hstep a List.mem_cons_self b b₁ h0 hb₁) fun a' ha' =>
      hstep a' (List.mem_cons_of_mem a ha')

theorem bind_congr_ok {x : Checked F α} {f g : α → Checked F β} (h : ∀ a, x = .ok a → f a = g a) :
    x >>= f = x >>= g := by
  cases x with
  | error fault => rfl
  | ok a => exact h a rfl

theorem foldlM_congr_ok {f g : β → α → Checked F β} {l : List α} {b : β} (h0 : Q b)
    (hcongr : ∀ a ∈ l, ∀ b, Q b → f b a = g b a)
    (hstep : ∀ a ∈ l, ∀ b b', Q b → g b a = .ok b' → Q b') : l.foldlM f b = l.foldlM g b := by
  induction l generalizing b with
  | nil => rfl
  | cons a l ih =>
    rw [List.foldlM_cons, List.foldlM_cons, hcongr a List.mem_cons_self b h0]
    refine bind_congr_ok fun b' hb' => ih (hstep a List.mem_cons_self b b' h0 hb') ?_ ?_
    · exact fun a' ha' => hcongr a' (List.mem_cons_of_mem a ha')
    · exact fun a' ha' => hstep a' (List.mem_cons_of_mem a ha')

theorem mapM_eq_ok {f : α → Checked F β} {g : α → β} {l : List α}
    (h : ∀ a ∈ l, f a = .ok (g a)) : l.mapM f = .ok (l.map g) := by
  induction l with
  | nil => rfl
  | cons a l ih =>
    rw [List.mapM_cons, h a List.mem_cons_self, ok_bind,
      ih fun c hc => h c (List.mem_cons_of_mem a hc), ok_bind]
    rfl

theorem filterMapM_eq_ok {f : α → Checked F (Option β)} {g : α → Option β} {l : List α}
    (h : ∀ a ∈ l, f a = .ok (g a)) : l.filterMapM f = .ok (l.filterMap g) := by
  induction l with
  | nil => rfl
  | cons a l ih =>
    rw [List.filterMapM_cons, h a List.mem_cons_self, ok_bind,
      ih fun c hc => h c (List.mem_cons_of_mem a hc), List.filterMap_cons]
    cases g a <;> rfl

/-! ## Two computations side by side -/

/-- Two computations end alike: with values that are related, or with the same fault. -/
inductive Matches (P : α → β → Prop) : Checked F α → Checked F β → Prop
  | ok {a : α} {b : β} (h : P a b) : Matches P (.ok a) (.ok b)
  | error (fault : Fault F) : Matches P (.error fault) (.error fault)

theorem Matches.mono {P P' : α → β → Prop} {x : Checked F α} {y : Checked F β}
    (hxy : Matches P x y) (h : ∀ a b, P a b → P' a b) : Matches P' x y := by
  cases hxy with
  | ok hab => exact .ok (h _ _ hab)
  | error fault => exact .error fault

/-- Two loops match if their steps do, from all values that are related. -/
theorem Matches.foldlM {γ : Type} {P : α → β → Prop} {f : α → γ → Checked F α}
    {g : β → γ → Checked F β} {l : List γ} {a : α} {b : β} (h0 : P a b)
    (hstep : ∀ c ∈ l, ∀ a b, P a b → Matches P (f a c) (g b c)) :
    Matches P (l.foldlM f a) (l.foldlM g b) := by
  induction l generalizing a b with
  | nil => exact .ok h0
  | cons c l ih =>
    have hhead := hstep c List.mem_cons_self a b h0
    rw [List.foldlM_cons, List.foldlM_cons]
    generalize f a c = x at hhead
    generalize g b c = y at hhead
    cases hhead with
    | ok hab => exact ih hab fun c' hc' => hstep c' (List.mem_cons_of_mem c hc')
    | error fault => exact .error fault

end Potts.Checked
