import YNet.Lib.Process

-- Code of an application, which works on a value `a` that it is handed by reference. It can make
-- atomic steps on the shared state, and call the code that it is wrapped around. It may call it any
-- number of times, and catch the exceptions that it throws.
inductive Code (σ φ α : Type)
  | ret (a : α)
  | throw (e : φ) (a : α)
  | hang
  | act (update : σ → σ) (rest : σ → Code σ φ α)
  | next (a : α) (rest : Option φ → α → Code σ φ α)

-- What is called on a value, and goes on with a possible exception and the changed value.
abbrev Layer (σ ε φ α : Type) :=
  α → (Option φ → α → Process σ ε) → Process σ ε

namespace Code

variable {σ ε φ α : Type}

def run (next : Layer σ ε φ α) : Code σ φ α → (Option φ → α → Process σ ε) → Process σ ε
  | ret a, k           => k none a
  | throw e a, k       => k (some e) a
  | hang, _            => .stop
  | act update rest, k => .act update fun s => (rest s).run next k
  | .next a rest, k    => next a fun e a => (rest e a).run next k

-- Code that is not wrapped around anything.
def exec (c : Code σ φ α) (k : Option φ → α → Process σ ε) : Process σ ε :=
  c.run (fun a k => k none a) k

-- What follows a call if nothing else is to be done: the exception, if there is one, is passed on.
def forward : Option φ → α → Code σ φ α
  | none, a   => ret a
  | some e, a => throw e a

-- The same code on a state that contains its state.
def zoom {τ : Type} (get : τ → σ) (set : σ → τ → τ) : Code σ φ α → Code τ φ α
  | ret a           => ret a
  | throw e a       => throw e a
  | hang            => hang
  | act update rest => act (fun s => set (update (get s)) s) fun s => (rest (get s)).zoom get set
  | .next a rest    => .next a fun e a => (rest e a).zoom get set

-- The atomic steps of the code preserve a property of the shared state.
def Keeps (I : σ → Prop) : Code σ φ α → Prop
  | ret _ | throw _ _ | hang => True
  | act update rest          => (∀ s, I s → I (update s)) ∧ ∀ s, (rest s).Keeps I
  | .next _ rest             => ∀ e a, (rest e a).Keeps I

-- The code preserves a property of the value, if the code that it is wrapped around does so.
def Preserves (Q : α → Prop) : Code σ φ α → Prop
  | ret a | throw _ a => Q a
  | hang              => True
  | act _ rest        => ∀ s, (rest s).Preserves Q
  | .next a rest      => Q a ∧ ∀ e a, Q a → (rest e a).Preserves Q

-- The code comes to its end, throws only exceptions of the kind `E`, and preserves a property of the
-- value, if the code that it is wrapped around does so.
def Tame (E : φ → Prop) (Q : α → Prop) : Code σ φ α → Prop
  | ret a        => Q a
  | throw e a    => E e ∧ Q a
  | hang         => False
  | act _ rest   => ∀ s, (rest s).Tame E Q
  | .next a rest => Q a ∧ ∀ e a, (∀ e' ∈ e, E e') → Q a → (rest e a).Tame E Q

-- Where every atomic step is made in a state in `S`, the code comes to its end, and `R` holds of the
-- number of its calls, `n` of which have been made before, and of what it ends with.
def Finishes (S : σ → Prop) (R : Nat → Option φ → α → Prop) : Nat → Code σ φ α → Prop
  | n, ret a        => R n none a
  | n, throw e a    => R n (some e) a
  | _, hang         => False
  | n, act _ rest   => ∀ s, S s → (rest s).Finishes S R n
  | n, .next _ rest => ∀ e a, (rest e a).Finishes S R (n + 1)

variable {next : Layer σ ε φ α} {c : Code σ φ α} {k : Option φ → α → Process σ ε} {I : σ → Prop}
  {P : ε → Prop} {Q : α → Prop} {gate : List ε}

@[simp]
theorem run_forward : (forward e a : Code σ φ α).run next k = k e a := by
  cases e <;> rfl

@[simp]
theorem run_next_forward : (Code.next a forward).run next k = next a k :=
  congrArg (next a) (funext₂ fun _ _ => run_forward)

@[simp]
theorem finishes_next_forward {S : σ → Prop} {R : Nat → Option φ → α → Prop} :
    (Code.next a forward).Finishes S R n ↔ ∀ e a, R (n + 1) e a := by
  refine forall₂_congr fun e a => ?_
  cases e <;> rfl

theorem zoom_next_forward {τ : Type} {get : τ → σ} {set : σ → τ → τ} {rest : Option φ → α → Code σ φ α}
    (hn : ∀ a, rest none a = ret a) (hs : ∀ e a, rest (some e) a = throw e a) :
    (Code.next a rest).zoom get set = .next a forward := by
  refine congrArg (Code.next a) (funext₂ fun e a => ?_)
  cases e with
  | none   => rw [hn]; rfl
  | some e => rw [hs]; rfl

theorem run_gated
    (hn : ∀ a k, (∀ e a, (k e a).Gated P gate) → (next a k).Gated P gate)
    (hk : ∀ e a, (k e a).Gated P gate) : (c.run next k).Gated P gate := by
  induction c
  case ret a           => exact hk none a
  case throw e a       => exact hk (some e) a
  case hang            => exact .stop
  case act hi          => exact .act hi
  case next a rest hi  => exact hn a _ hi

theorem run_keeps (hc : c.Keeps I)
    (hn : ∀ a k, (∀ e a, (k e a).Keeps I) → (next a k).Keeps I)
    (hk : ∀ e a, (k e a).Keeps I) : (c.run next k).Keeps I := by
  induction c
  case ret a           => exact hk none a
  case throw e a       => exact hk (some e) a
  case hang            => trivial
  case act hi          => exact ⟨hc.1, fun s => hi s (hc.2 s)⟩
  case next a rest hi  => exact hn a _ fun e a => hi e a (hc e a)

theorem exec_keeps (hc : c.Keeps I) (hk : ∀ e a, (k e a).Keeps I) : (c.exec k).Keeps I :=
  run_keeps hc (fun a _ h => h none a) hk

theorem run_avoids (hc : c.Preserves Q)
    (hn : ∀ a k, Q a → (∀ e a, Q a → (k e a).Avoids I P) → (next a k).Avoids I P)
    (hk : ∀ e a, Q a → (k e a).Avoids I P) : (c.run next k).Avoids I P := by
  induction c
  case ret a           => exact hk none a hc
  case throw e a       => exact hk (some e) a hc
  case hang            => trivial
  case act hi          => exact fun s _ => hi s (hc s)
  case next a rest hi  => exact hn a _ hc.1 fun e a hq => hi e a (hc.2 e a hq)

theorem preserves_true : c.Preserves fun _ => True := by
  induction c
  case ret   => trivial
  case throw => trivial
  case hang  => trivial
  case act hi => exact hi
  case next hi => exact ⟨trivial, fun e a _ => hi e a⟩

theorem exec_avoids (hk : ∀ e a, (k e a).Avoids I P) : (c.exec k).Avoids I P :=
  run_avoids preserves_true (fun a _ _ h => h none a trivial) fun e a _ => hk e a

theorem run_ends {E : φ → Prop} (hc : c.Tame E Q)
    (hn : ∀ a k, Q a → (∀ e a, (∀ e' ∈ e, E e') → Q a → (k e a).Ends P) → (next a k).Ends P)
    (hk : ∀ e a, (∀ e' ∈ e, E e') → Q a → (k e a).Ends P) : (c.run next k).Ends P := by
  induction c
  case ret a           => exact hk none a (by simp) hc
  case throw e a       => exact hk (some e) a (by simpa using hc.1) hc.2
  case hang            => contradiction
  case act hi          => exact fun s => hi s (hc s)
  case next a rest hi  => exact hn a _ hc.1 fun e a he hq => hi e a (hc.2 e a he hq)

theorem exec_ends {E : φ → Prop} (hc : c.Tame E Q)
    (hk : ∀ e a, (∀ e' ∈ e, E e') → Q a → (k e a).Ends P) : (c.exec k).Ends P :=
  run_ends hc (fun a _ ha h => h none a (by simp) ha) hk

section Chain

variable (enter call : Nat → ε) (inner : Layer σ ε φ α)

-- Each code is wrapped around the rest of the list, and the last one around `inner`. The events tell
-- when a code is run and when it calls what it is wrapped around.
def chain : Nat → List (α → Code σ φ α) → Layer σ ε φ α
  | _, []      => inner
  | i, m :: ms => fun a k =>
    .emit (enter i) ((m a).run (fun a k => .emit (call i) (chain (i + 1) ms a k)) k)

-- The events of a pass through all codes.
def passes : Nat → Nat → List ε
  | _, 0     => []
  | i, n + 1 => enter i :: call i :: passes (i + 1) n

variable {enter call inner} {ms ms' : List (α → Code σ φ α)}

-- Whatever the codes do, an event behind the chain is reported after a pass through all of them.
theorem chain_gated (he : ∀ i, ¬P (enter i)) (hc : ∀ i, ¬P (call i))
    (hk : ∀ e a, (k e a).Gated P (passes enter call i ms.length)) :
    (chain enter call inner i ms a k).Gated P (passes enter call i ms.length) := by
  induction ms generalizing i a k
  case nil            => exact .nil
  case cons m ms hi   =>
    refine .emit (he i) (run_gated (fun a k hk => ?_) fun e a => ?_)
    · exact .emit (hc i) (hi fun e a => (hk e a).mono (List.sublist_cons_self ..))
    · exact (hk e a).mono (List.sublist_cons_self ..)

theorem chain_keeps (hm : ∀ m ∈ ms, ∀ a, (m a).Keeps I)
    (hin : ∀ a k, (∀ e a, (k e a).Keeps I) → (inner a k).Keeps I)
    (hk : ∀ e a, (k e a).Keeps I) : (chain enter call inner i ms a k).Keeps I := by
  induction ms generalizing i a k
  case nil          => exact hin a k hk
  case cons m ms hi =>
    have ⟨h, hm⟩ := List.forall_mem_cons.mp hm
    exact run_keeps (h a) (fun a k hk => hi hm hk) hk

theorem chain_ends {E : φ → Prop} (hm : ∀ m ∈ ms, ∀ a, Q a → (m a).Tame E Q)
    (hin : ∀ a k, Q a → (∀ e a, (∀ e' ∈ e, E e') → Q a → (k e a).Ends P) → (inner a k).Ends P)
    (ha : Q a) (hk : ∀ e a, (∀ e' ∈ e, E e') → Q a → (k e a).Ends P) :
    (chain enter call inner i ms a k).Ends P := by
  induction ms generalizing i a k
  case nil          => exact hin a k ha hk
  case cons m ms hi =>
    have ⟨h, hm⟩ := List.forall_mem_cons.mp hm
    exact .inl (run_ends (h a ha) (fun a k ha hk => .inl (hi hm ha hk)) hk)

-- If some code of the chain never calls on, then nothing behind it is reported.
theorem chain_avoids (he : ∀ i, ¬P (enter i)) (hc : ∀ i, ¬P (call i))
    (hm : ∀ m ∈ ms, ∀ a, Q a → (m a).Preserves Q)
    (hb : ∀ (next : Layer σ ε φ α) (a k), Q a → (∀ e a, Q a → (k e a).Avoids I P) →
      ((m a).run next k).Avoids I P)
    (ha : Q a) (hk : ∀ e a, Q a → (k e a).Avoids I P) :
    (chain enter call inner i (ms ++ m :: ms') a k).Avoids I P := by
  induction ms generalizing i a k
  case nil            => exact ⟨he i, hb _ a k ha hk⟩
  case cons m' ms hi  =>
    have ⟨h, hm⟩ := List.forall_mem_cons.mp hm
    refine ⟨he i, run_avoids (h a ha) (fun a k ha hk => ?_) hk⟩
    exact ⟨hc i, hi hm ha hk⟩

end Chain

end Code
