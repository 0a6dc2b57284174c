import YNet.Lib.Code

-- Protocols that say which events may be reported after others: automata with a phase as their state,
-- which have no way to go on when an event is not allowed.

namespace Process

variable {σ ε θ : Type} {δ : θ → ε → Option θ} {F : θ → Prop} {q : θ} {t : Process σ ε}

-- The phase after some events.
def after (δ : θ → ε → Option θ) (q : θ) (tr : List ε) : Option θ :=
  tr.foldlM δ q

theorem after_nil : after δ q [] = some q :=
  rfl

theorem after_cons : after δ q (e :: tr) = (δ q e).bind (after δ · tr) :=
  List.foldlM_cons

theorem after_append : after δ q (tr ++ tr') = (after δ q tr).bind (after δ · tr') :=
  List.foldlM_append

theorem after_concat : after δ q (tr ++ [e]) = (after δ q tr).bind (δ · e) := by
  simp [after_append, after_cons, after_nil]

-- The process reports only what the protocol allows, and comes to its end only in a phase with the
-- property `F`.
def Obeys (δ : θ → ε → Option θ) (F : θ → Prop) : θ → Process σ ε → Prop
  | q, stop        => F q
  | q, emit e rest => ∃ q', δ q e = some q' ∧ rest.Obeys δ F q'
  | q, act _ rest  => ∀ s, (rest s).Obeys δ F q

theorem Obeys.trace (h : t.Obeys δ F q) (ht : t.Trace tr) : ∃ q', after δ q tr = some q' := by
  induction ht generalizing q with
  | nil        => exact ⟨q, rfl⟩
  | emit _ hi  =>
    obtain ⟨q', he, h⟩ := h
    rw [after_cons, he]
    exact hi h
  | act s _ hi => exact hi (h s)

theorem Obeys.finishes (h : t.Obeys δ F q) (hf : t.Finishes tr) : ∃ q', after δ q tr = some q' ∧ F q' := by
  induction hf generalizing q with
  | stop       => exact ⟨q, rfl, h⟩
  | emit _ hi  =>
    obtain ⟨q', he, h⟩ := h
    rw [after_cons, he]
    exact hi h
  | act s _ hi => exact hi (h s)

end Process

namespace Code

variable {σ ε φ α θ : Type} {δ : θ → ε → Option θ} {F : θ → Prop} {q : θ} {next inner : Layer σ ε φ α} {c : Code σ φ α}
  {k : Option φ → α → Process σ ε} {enter call : Nat → ε} {ms : List (α → Code σ φ α)}

-- The code comes to its end, if the code that it is wrapped around does so.
def Halts : Code σ φ α → Prop
  | ret _ | throw _ _ => True
  | hang              => False
  | act _ rest        => ∀ s, (rest s).Halts
  | .next _ rest      => ∀ e a, (rest e a).Halts

theorem run_obeys (hh : c.Halts ∨ F q)
    (hn : ∀ a k, (∀ e a, (k e a).Obeys δ F q) → (next a k).Obeys δ F q)
    (hk : ∀ e a, (k e a).Obeys δ F q) : (c.run next k).Obeys δ F q := by
  induction c with
  | ret a          => exact hk none a
  | throw e a      => exact hk (some e) a
  | hang           => exact hh.resolve_left id
  | act _ rest hi  => exact fun s => hi s (hh.imp_left (· s))
  | next a rest hi => exact hn a _ fun e a => hi e a (hh.imp_left (· e a))

theorem exec_obeys (hh : c.Halts ∨ F q) (hk : ∀ e a, (k e a).Obeys δ F q) : (c.exec k).Obeys δ F q :=
  run_obeys hh (fun a _ h => h none a) hk

-- A chain of codes stays in a phase in which all of them may be run.
theorem chain_obeys (hh : (∀ m ∈ ms, ∀ a, (m a).Halts) ∨ F q) (he : ∀ i, δ q (enter i) = some q)
    (hc : ∀ i, δ q (call i) = some q)
    (hin : ∀ a k, (∀ e a, (k e a).Obeys δ F q) → (inner a k).Obeys δ F q)
    (hk : ∀ e a, (k e a).Obeys δ F q) : (chain enter call inner i ms a k).Obeys δ F q := by
  induction ms generalizing i a k with
  | nil          => exact hin a k hk
  | cons m ms hi =>
    rw [List.forall_mem_cons] at hh
    refine ⟨q, he i, run_obeys (hh.imp_left fun h => h.1 a) (fun a k hk => ?_) hk⟩
    exact ⟨q, hc i, hi (hh.imp_left And.right) hk⟩

end Code
