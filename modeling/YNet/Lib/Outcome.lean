import YNet.Lib.Calls

namespace Process

variable {σ ε : Type} {t t' t'' : Process σ ε}

theorem Reaches.trans (h : t.Reaches tr t') (h' : t'.Reaches tr' t'') : t.Reaches (tr ++ tr') t'' := by
  induction h with
  | refl       => exact h'
  | emit _ hi  => exact .emit (hi h')
  | act s _ hi => exact .act s (hi h')

theorem Reaches.trace (h : t.Reaches tr t') (ht : t'.Trace tr') : t.Trace (tr ++ tr') := by
  induction h with
  | refl       => exact ht
  | emit _ hi  => exact .emit (hi ht)
  | act s _ hi => exact .act s (hi ht)

theorem Trace.of_append (h : t.Trace (tr ++ tr')) : t.Trace tr := by
  generalize ho : tr ++ tr' = all at h
  induction h generalizing tr with
  | nil =>
    rw [(List.append_eq_nil_iff.mp ho).1]
    exact .nil
  | emit _ hi =>
    cases tr with
    | nil       => exact .nil
    | cons e tr =>
      have ⟨he, ho⟩ := List.cons.inj ho
      exact he ▸ .emit (hi ho)
  | act s _ hi => exact .act s (hi ho)

theorem exists_trace_iff : (∃ tr, t.Trace (tr ++ [e])) ↔ ¬t.Avoids (fun _ => True) (· = e) := by
  rw [avoids_iff]
  constructor
  · intro ⟨tr, ht⟩ h
    exact h _ ht e (by simp) rfl
  · intro h
    push Not at h
    have ⟨tr, ht, _, hm, he⟩ := h
    have ⟨l₁, l₂, hs⟩ := List.append_of_mem (he ▸ hm)
    rw [hs, List.append_cons] at ht
    exact ⟨l₁, ht.of_append⟩

end Process

namespace Code

variable {σ ε φ α : Type}

-- How calls on a value can come to their end: with a possible exception, and the changed value.
abbrev Effect (φ α : Type) :=
  α → Option φ → α → Prop

def Effect.skip : Effect φ α :=
  fun a e a' => e = none ∧ a' = a

-- The ends of code, when `next` are those of the code that it is wrapped around. Each atomic step finds
-- an arbitrary state.
inductive Outcome (next : Effect φ α) : Code σ φ α → Option φ → α → Prop
  | ret : Outcome next (.ret a) none a
  | throw : Outcome next (.throw e a) (some e) a
  | act (s : σ) : (Outcome next (rest s) e a) → Outcome next (.act update rest) e a
  | next : (next a e a') → (Outcome next (rest e a') e' a'') → Outcome next (.next a rest) e' a''

-- The code calls what it is wrapped around once, with the value `b`. The call returns with `b'`, and then
-- the code returns with `a`.
inductive Pass : Code σ φ α → α → α → α → Prop
  | act (s : σ) : (Pass (rest s) b b' a) → Pass (.act update rest) b b' a
  | next : (Outcome (fun _ _ _ => False) (rest none b') none a) → Pass (.next b rest) b b' a

def chainEffect (inner : Effect φ α) : List (α → Code σ φ α) → Effect φ α
  | []      => inner
  | m :: ms => fun a => Outcome (chainEffect inner ms) (m a)

variable {next next' : Effect φ α} {c : Code σ φ α} {P : ε → Prop} {layer : Layer σ ε φ α}
  {k : Option φ → α → Process σ ε}

theorem Outcome.mono (h : Outcome next c e a) (hn : ∀ a e a', next a e a' → next' a e a') :
    Outcome next' c e a := by
  induction h with
  | ret         => exact .ret
  | throw       => exact .throw
  | act s _ hi  => exact .act s hi
  | next h _ hi => exact .next (hn _ _ _ h) hi

theorem Pass.outcome (h : Pass c b b' a) (hn : next b none b') : Outcome next c none a := by
  induction h with
  | act s _ hi => exact .act s (hi hn)
  | next h     => exact .next hn (h.mono nofun)

-- A process that runs code goes on with its ends only, and with each of them in some run. It reports no
-- events of the kind `P` before.
structure Computes (P : ε → Prop) (layer : Layer σ ε φ α) (effect : Effect φ α) : Prop where
  reaches : ∀ {a e a'} (k : Option φ → α → Process σ ε), effect a e a' → ∃ tr, (layer a k).Reaches tr (k e a')
  avoids  : ∀ {a k}, (∀ e a', effect a e a' → (k e a').Avoids (fun _ => True) P) →
    (layer a k).Avoids (fun _ => True) P

namespace Computes

theorem skip : Computes P (fun a (k : Option φ → α → Process σ ε) => k none a) Effect.skip where
  reaches _ h := ⟨[], h.1 ▸ h.2 ▸ .refl⟩
  avoids h    := h _ _ ⟨rfl, rfl⟩

theorem emit (hp : ¬P ev) (h : Computes P layer next) : Computes P (fun a k => .emit ev (layer a k)) next where
  reaches k hn :=
    have ⟨tr, hr⟩ := h.reaches k hn
    ⟨ev :: tr, .emit hr⟩
  avoids hk    := ⟨hp, h.avoids hk⟩

theorem run_reaches (h : Computes P layer next) (hc : Outcome next c e a) :
    ∃ tr, (c.run layer k).Reaches tr (k e a) := by
  induction hc with
  | ret            => exact ⟨[], .refl⟩
  | throw          => exact ⟨[], .refl⟩
  | act s _ hi     =>
    have ⟨tr, hr⟩ := hi
    exact ⟨tr, .act s hr⟩
  | @next _ _ _ rest _ _ hn _ hi =>
    have ⟨tr₁, h₁⟩ := h.reaches (fun e a => (rest e a).run layer k) hn
    have ⟨tr₂, h₂⟩ := hi
    exact ⟨tr₁ ++ tr₂, h₁.trans h₂⟩

theorem run_avoids (h : Computes P layer next)
    (hk : ∀ e a, Outcome next c e a → (k e a).Avoids (fun _ => True) P) :
    (c.run layer k).Avoids (fun _ => True) P := by
  induction c with
  | ret a         => exact hk none a .ret
  | throw e a     => exact hk (some e) a .throw
  | hang          => trivial
  | act _ _ hi    => exact fun s _ => hi s fun e a hc => hk e a (.act s hc)
  | next a rest hi => exact h.avoids fun e a' hn => hi e a' fun e' a'' hc => hk e' a'' (.next hn hc)

theorem exec_reaches (hc : Outcome Effect.skip c e a) : ∃ tr, (c.exec k).Reaches tr (k e a) :=
  run_reaches (P := fun _ => False) skip hc

theorem exec_avoids (hk : ∀ e a, Outcome Effect.skip c e a → (k e a).Avoids (fun _ => True) P) :
    (c.exec k).Avoids (fun _ => True) P :=
  run_avoids skip hk

theorem run {c : α → Code σ φ α} (h : Computes P layer next) :
    Computes P (fun a k => (c a).run layer k) fun a => Outcome next (c a) where
  reaches _ hc := run_reaches h hc
  avoids hk    := run_avoids h hk

theorem chain {enter call : Nat → ε} {ms : List (α → Code σ φ α)} (he : ∀ i, ¬P (enter i)) (hc : ∀ i, ¬P (call i))
    (h : Computes P layer next) : Computes P (chain enter call layer i ms) (chainEffect next ms) := by
  induction ms generalizing i with
  | nil          => exact h
  | cons m ms hi => exact emit (he i) (run (emit (hc i) hi))

-- The event is reported exactly behind the ends of the code.
theorem exists_trace_iff (h : Computes (· = ev) layer next) :
    (∃ tr, (layer a k).Trace (tr ++ [ev])) ↔ ∃ e a', next a e a' ∧ ∃ tr, (k e a').Trace (tr ++ [ev]) := by
  constructor
  · intro ht
    by_contra hn
    push Not at hn
    refine Process.exists_trace_iff.mp ht (h.avoids fun e a' ha => ?_)
    by_contra hk
    have ⟨tr, ht⟩ := Process.exists_trace_iff.mpr hk
    exact hn e a' ha tr ht
  · intro ⟨e, a', ha, tr', ht⟩
    have ⟨tr, hr⟩ := h.reaches k ha
    exact ⟨tr ++ tr', List.append_assoc .. ▸ hr.trace ht⟩

end Computes

end Code
