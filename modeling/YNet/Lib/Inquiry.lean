import Mathlib

-- Computations that ask for something, any number of times, and go on with the answers.
inductive Inquiry (κ ρ φ α : Type)
  | ret (a : α)
  | throw (e : φ)
  | ask (key : κ) (rest : ρ → Inquiry κ ρ φ α)

namespace Inquiry

variable {κ ρ φ α β γ : Type}

protected def bind : Inquiry κ ρ φ α → (α → Inquiry κ ρ φ β) → Inquiry κ ρ φ β
  | ret a, f        => f a
  | throw e, _      => throw e
  | ask key rest, f => ask key fun r => (rest r).bind f

instance : Monad (Inquiry κ ρ φ) where
  pure := ret
  bind := Inquiry.bind

-- A step that asks for nothing.
def ofExcept : Except φ α → Inquiry κ ρ φ α
  | .ok a    => ret a
  | .error e => throw e

instance : MonadLift (Except φ) (Inquiry κ ρ φ) where
  monadLift := ofExcept

-- The result with fixed answers. An exception in the place of an answer is passed on.
def run (answer : κ → Except φ ρ) : Inquiry κ ρ φ α → Except φ α
  | ret a        => .ok a
  | throw e      => .error e
  | ask key rest =>
    match answer key with
    | .ok r    => (rest r).run answer
    | .error e => .error e

-- How far a computation can come when each of its questions gets one of the answers in `A`.
inductive Leads (A : κ → Except φ ρ → Prop) (t : Inquiry κ ρ φ α) : Inquiry κ ρ φ α → Prop
  | refl : Leads A t t
  | answer : (Leads A t (ask key rest)) → (A key (.ok r)) → Leads A t (rest r)
  | fail : (Leads A t (ask key rest)) → (A key (.error e)) → Leads A t (throw e)

variable {answer : κ → Except φ ρ} {A A' : κ → Except φ ρ → Prop} {t t' : Inquiry κ ρ φ α}

instance : LawfulMonad (Inquiry κ ρ φ) := by
  refine .mk' _ ?_ (fun _ _ => rfl) ?_
  · intro α t
    induction t with
    | ret | throw      => rfl
    | ask key rest hi  => exact congrArg (ask key) (funext hi)
  · intro α β γ t f g
    induction t with
    | ret | throw      => rfl
    | ask key rest hi  => exact congrArg (ask key) (funext hi)

@[simp]
theorem run_pure : (pure a : Inquiry κ ρ φ α).run answer = pure a :=
  rfl

@[simp]
theorem run_liftM {x : Except φ α} : (liftM x : Inquiry κ ρ φ α).run answer = x := by
  cases x <;> rfl

@[simp]
theorem run_ask {rest : ρ → Inquiry κ ρ φ α} :
    (ask key rest).run answer = answer key >>= fun r => (rest r).run answer := by
  rw [run]
  cases answer key <;> rfl

@[simp]
theorem run_bind {f : α → Inquiry κ ρ φ β} : (t >>= f).run answer = t.run answer >>= fun a => (f a).run answer := by
  induction t with
  | ret | throw      => rfl
  | ask key rest hi  =>
    have h : ask key rest >>= f = ask key fun r => rest r >>= f := rfl
    rw [h, run_ask, run_ask, bind_assoc]
    exact bind_congr hi

@[simp]
theorem run_map {f : α → β} : (f <$> t).run answer = f <$> t.run answer := by
  rw [map_eq_pure_bind, map_eq_pure_bind, run_bind]
  rfl

theorem run_mapM {f : β → Inquiry κ ρ φ α} {bs : List β} :
    (bs.mapM f).run answer = bs.mapM fun b => (f b).run answer := by
  induction bs with
  | nil          => rfl
  | cons b bs hi => simp [List.mapM_cons, hi]

theorem Leads.mono (h : t.Leads A t') (ha : ∀ key x, A key x → A' key x) : t.Leads A' t' := by
  induction h with
  | refl           => exact .refl
  | answer _ hr hi => exact .answer hi (ha _ _ hr)
  | fail _ he hi   => exact .fail hi (ha _ _ he)

-- If there is only one answer to each question, then there is only one way to go.
theorem Leads.run_eq (h : t.Leads A t') (ha : ∀ key x, A key x → answer key = x) : t.run answer = t'.run answer := by
  induction h with
  | refl           => rfl
  | answer _ hr hi =>
    rw [hi, run_ask, ha _ _ hr]
    rfl
  | fail _ he hi   =>
    rw [hi, run_ask, ha _ _ he]
    rfl

end Inquiry
