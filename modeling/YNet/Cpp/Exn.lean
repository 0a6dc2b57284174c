import Mathlib

-- The exceptions of the C++ standard library that the modelled code can raise.
inductive Exn
  | outOfRange
  | invalidArgument
  | runtimeError (what : String)
  | badVariantAccess
  | filesystemError
  deriving DecidableEq, Repr

-- How a call can fail to return.
inductive Failure
  | thrown (e : Exn)
  | undefined
  | endless
  deriving DecidableEq, Repr

instance : Coe Exn Failure where
  coe := .thrown

-- A sequence of two steps returns when the first does, and the second does whatever the first returns.
theorem Exn.bind_ok_iff {x : Except ε α} {k : α → Except ε β} {r : Prop}
    (h : ∀ a, (∃ b, k a = .ok b) ↔ r) : (∃ b, x >>= k = .ok b) ↔ (∃ a, x = .ok a) ∧ r := by
  cases x
  case error => simp [bind, Except.bind]
  case ok a  => simp [bind, Except.bind, h]

theorem Exn.bind_eq_ok {x : Except ε α} {k : α → Except ε β} (h : x >>= k = .ok b) :
    ∃ a, x = .ok a ∧ k a = .ok b := by
  cases x
  case error => contradiction
  case ok a  => exact ⟨a, rfl, h⟩

theorem Exn.exists_of_map_toOption {x : Except ε α} {f : α → β} (h : x.toOption.map f = some b) :
    ∃ a, x = .ok a ∧ f a = b := by
  cases x
  case error => contradiction
  case ok a  => exact ⟨a, rfl, Option.some.inj h⟩
