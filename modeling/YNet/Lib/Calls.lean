import YNet.Lib.Code

-- What can be said about a run from one of the calls in it on.
namespace Process

variable {σ ε : Type}

-- The process reports some events and gets to what is left of it then.
inductive Reaches : Process σ ε → List ε → Process σ ε → Prop
  | refl : Reaches t [] t
  | emit : (Reaches t tr t') → Reaches (.emit e t) (e :: tr) t'
  | act (s : σ) : (Reaches (rest s) tr t') → Reaches (.act update rest) tr t'

-- What follows an event is always in the relation `R` to it.
def Follows (R : ε → Process σ ε → Prop) : Process σ ε → Prop
  | stop        => True
  | emit e rest => R e rest ∧ rest.Follows R
  | act _ rest  => ∀ s, (rest s).Follows R

-- The process reports no event of the kind `P` before the first one of the kind `S`.
def AvoidsUntil (S P : ε → Prop) : Process σ ε → Prop
  | stop        => True
  | emit e rest => S e ∨ (¬P e ∧ rest.AvoidsUntil S P)
  | act _ rest  => ∀ s, (rest s).AvoidsUntil S P

-- The process without the reports of some events.
def hide (p : ε → Bool) : Process σ ε → Process σ ε
  | stop            => stop
  | emit e rest     => if p e then rest.hide p else .emit e (rest.hide p)
  | act update rest => .act update fun s => (rest s).hide p

variable {t t' : Process σ ε} {R : ε → Process σ ε → Prop} {S P : ε → Prop}

theorem Follows.of_reaches (h : t.Follows R) (hr : t.Reaches tr (.emit e t')) : R e t' := by
  generalize ho : Process.emit e t' = t'' at hr
  induction hr with
  | refl =>
    subst ho
    exact h.1
  | emit _ hi  => exact hi h.2 ho
  | act s _ hi => exact hi (h s) ho

theorem AvoidsUntil.of_trace (h : t.AvoidsUntil S P) (ht : t.Trace (tr ++ [e])) (hs : ∀ e' ∈ tr ++ [e], ¬S e') :
    ¬P e := by
  generalize ho : tr ++ [e] = all at ht hs
  induction ht generalizing tr with
  | nil => simp at ho
  | emit ht hi =>
    have ⟨hn, h⟩ := h.resolve_left (hs _ List.mem_cons_self)
    cases tr with
    | nil =>
      cases ho
      exact hn
    | cons e' tr => exact hi h (List.cons.inj ho).2 fun e'' he => hs e'' (List.mem_cons_of_mem _ he)
  | act s _ hi => exact hi (h s) ho hs

end Process

namespace Code

variable {σ ε φ α : Type}

-- The calls that code can make of what it is wrapped around: the value that it hands over, and the code
-- that follows the call.
inductive Calls : Code σ φ α → α → (Option φ → α → Code σ φ α) → Prop
  | here : Calls (.next a rest) a rest
  | act (s : σ) : (Calls (rest s) a rest') → Calls (.act update rest) a rest'
  | again (e : Option φ) (a₀ : α) : (Calls (rest e a₀) a rest') → Calls (.next a₁ rest) a rest'

-- The code preserves a property of the value, and makes calls only if it may do so.
def Leaves (may : Prop) (Q : α → Prop) : Code σ φ α → Prop
  | ret a | throw _ a => Q a
  | hang              => True
  | act _ rest        => ∀ s, (rest s).Leaves may Q
  | .next a rest      => may ∧ Q a ∧ ∀ e a, Q a → (rest e a).Leaves may Q

-- What follows a call preserves a property of the value that has been established by the call.
def Resumes (may : Prop) (Q : α → Prop) : Code σ φ α → Prop
  | ret _ | throw _ _ | hang => True
  | act _ rest               => ∀ s, (rest s).Resumes may Q
  | .next _ rest             => ∀ e a, (rest e a).Resumes may Q ∧ (Q a → (rest e a).Leaves may Q)

variable {next : Layer σ ε φ α} {c : Code σ φ α} {k : Option φ → α → Process σ ε} {may : Prop}
  {Q : α → Prop} {S P : ε → Prop} {R : ε → Process σ ε → Prop}

theorem Preserves.leaves (h : c.Preserves Q) : c.Leaves True Q := by
  induction c with
  | ret        => exact h
  | throw      => exact h
  | hang       => trivial
  | act _ _ hi => exact fun s => hi s (h s)
  | next _ _ hi => exact ⟨trivial, h.1, fun e a ha => hi e a (h.2 e a ha)⟩

theorem Resumes.of_calls (h : c.Resumes may Q) (hc : c.Calls a rest) (ha : Q a') :
    (rest e a').Leaves may Q := by
  induction hc with
  | here            => exact (h e a').2 ha
  | act s _ hi      => exact hi (h s)
  | again e₀ a₀ _ hi => exact hi (h e₀ a₀).1

theorem run_avoidsUntil (hc : c.Leaves may Q)
    (hn : may → ∀ a k, Q a → (∀ e a, Q a → (k e a).AvoidsUntil S P) → (next a k).AvoidsUntil S P)
    (hk : ∀ e a, Q a → (k e a).AvoidsUntil S P) : (c.run next k).AvoidsUntil S P := by
  induction c with
  | ret a         => exact hk none a hc
  | throw e a     => exact hk (some e) a hc
  | hang          => trivial
  | act _ _ hi    => exact fun s => hi s (hc s)
  | next a rest hi => exact hn hc.1 a _ hc.2.1 fun e a ha => hi e a (hc.2.2 e a ha)

theorem exec_avoidsUntil (hc : c.Leaves True Q) (hk : ∀ e a, Q a → (k e a).AvoidsUntil S P) :
    (c.exec k).AvoidsUntil S P :=
  run_avoidsUntil hc (fun _ a _ ha h => h none a ha) hk

theorem run_follows
    (hn : ∀ a rest, c.Calls a rest → (∀ e a', ((rest e a').run next k).Follows R) →
      (next a fun e a' => (rest e a').run next k).Follows R)
    (hk : ∀ e a, (k e a).Follows R) : (c.run next k).Follows R := by
  induction c with
  | ret a          => exact hk none a
  | throw e a      => exact hk (some e) a
  | hang           => trivial
  | act _ _ hi     => exact fun s => hi s fun a rest hc => hn a rest (.act s hc)
  | next a rest hi => exact hn a rest .here fun e a => hi e a fun a' rest' hc => hn a' rest' (.again e a hc)

theorem exec_follows (hk : ∀ e a, (k e a).Follows R) : (c.exec k).Follows R :=
  run_follows (fun a _ _ h => h none a) hk

theorem run_hide {p : ε → Bool} {next' : Layer σ ε φ α} {k' : Option φ → α → Process σ ε}
    (hn : ∀ a k k', (∀ e a, (k e a).hide p = (k' e a).hide p) → (next a k).hide p = (next' a k').hide p)
    (hk : ∀ e a, (k e a).hide p = (k' e a).hide p) : (c.run next k).hide p = (c.run next' k').hide p := by
  induction c with
  | ret a          => exact hk none a
  | throw e a      => exact hk (some e) a
  | hang           => rfl
  | act update _ hi => exact congrArg (Process.act update) (funext hi)
  | next a rest hi => exact hn a _ _ hi

theorem exec_hide {p : ε → Bool} {k' : Option φ → α → Process σ ε}
    (hk : ∀ e a, (k e a).hide p = (k' e a).hide p) : (c.exec k).hide p = (c.exec k').hide p :=
  run_hide (fun a _ _ h => h none a) hk

section Chain

variable (enter call : Nat → ε) (inner : Layer σ ε φ α) (ms : List (α → Code σ φ α))

-- The calls that lead into the chain: a code of the list is about to be entered with the value, and what
-- follows is the rest of the codes in front of it.
inductive Entered (a₀ : α) (k₀ : Option φ → α → Process σ ε) :
    Nat → α → (Option φ → α → Process σ ε) → Prop
  | start : Entered a₀ k₀ 0 a₀ k₀
  | call :
    (Entered a₀ k₀ i a k') → (ms[i]? = some m) → ((m a).Calls a' rest) →
    Entered a₀ k₀ (i + 1) a' fun e a =>
      (rest e a).run (fun a k => .emit (call i) (chain enter call inner (i + 1) (ms.drop (i + 1)) a k)) k'

variable {enter call inner ms} {a₀ : α} {k₀ : Option φ → α → Process σ ε}

theorem chain_follows
    (hc : ∀ i a k, Entered enter call inner ms a₀ k₀ (i + 1) a k →
      R (call i) (chain enter call inner (i + 1) (ms.drop (i + 1)) a k))
    (he : ∀ i t, R (enter i) t) (hin : ∀ a k, (∀ e a, (k e a).Follows R) → (inner a k).Follows R)
    (h : Entered enter call inner ms a₀ k₀ i a k) (hk : ∀ e a, (k e a).Follows R) :
    (chain enter call inner i (ms.drop i) a k).Follows R := by
  generalize hl : ms.drop i = l
  induction l generalizing i a k with
  | nil         => exact hin a k hk
  | cons m l hi =>
    have hm : ms[i]? = some m := by
      rw [← List.head?_drop, hl]
      rfl
    have hl' : ms.drop (i + 1) = l := by
      rw [← List.tail_drop, hl]
      rfl
    subst hl'
    refine ⟨he i _, run_follows (fun a' rest hcall hrest => ?_) hk⟩
    have h' := Entered.call h hm hcall
    exact ⟨hc i a' _ h', hi h' hrest rfl⟩

theorem chain_avoidsUntil (he : ∀ i, ¬P (enter i)) (hc : ∀ i, ¬P (call i))
    (hm : ∀ m ∈ ms, ∀ a, Q a → (m a).Preserves Q)
    (hin : ∀ a k, Q a → (∀ e a, Q a → (k e a).AvoidsUntil S P) → (inner a k).AvoidsUntil S P)
    (ha : Q a) (hk : ∀ e a, Q a → (k e a).AvoidsUntil S P) :
    (chain enter call inner i ms a k).AvoidsUntil S P := by
  induction ms generalizing i a k with
  | nil          => exact hin a k ha hk
  | cons m ms hi =>
    have ⟨h, hm⟩ := List.forall_mem_cons.mp hm
    refine .inr ⟨he i, run_avoidsUntil (h a ha).leaves (fun _ a k ha hk => ?_) hk⟩
    exact .inr ⟨hc i, hi hm ha hk⟩

theorem chain_hide {p : ε → Bool} {inner' : Layer σ ε φ α} {k' : Option φ → α → Process σ ε}
    (hin : ∀ a k k', (∀ e a, (k e a).hide p = (k' e a).hide p) → (inner a k).hide p = (inner' a k').hide p)
    (hk : ∀ e a, (k e a).hide p = (k' e a).hide p) :
    (chain enter call inner i ms a k).hide p = (chain enter call inner' i ms a k').hide p := by
  induction ms generalizing i a k k' with
  | nil          => exact hin a k k' hk
  | cons m ms hi =>
    have hcall : ∀ a (k k' : Option φ → α → Process σ ε), (∀ e a, (k e a).hide p = (k' e a).hide p) →
        (Process.emit (call i) (chain enter call inner (i + 1) ms a k)).hide p
          = (Process.emit (call i) (chain enter call inner' (i + 1) ms a k')).hide p := by
      intro a k k' hk
      simp only [Process.hide, hi hk]
    have hrun := @run_hide σ ε φ α _ (m a) k p _ k' hcall hk
    simp only [chain, Process.hide, hrun]

end Chain

end Code
