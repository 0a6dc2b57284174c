import Mathlib

-- Processes that run concurrently on a shared state.

-- The rest of a process: it reports an event, or makes an atomic step on the shared state and goes on
-- with what depends on the state that it has found there.
inductive Process (σ ε : Type)
  | stop
  | emit (event : ε) (rest : Process σ ε)
  | act (update : σ → σ) (rest : σ → Process σ ε)

namespace Process

variable {σ ε : Type}

-- The events that a process has reported up to some point. Between its steps the state can be changed
-- arbitrarily by other processes.
inductive Trace : Process σ ε → List ε → Prop
  | nil : Trace t []
  | emit : (Trace t tr) → Trace (.emit e t) (e :: tr)
  | act (s : σ) : (Trace (rest s) tr) → Trace (.act update rest) tr

-- The events of a process that has come to its end.
inductive Finishes : Process σ ε → List ε → Prop
  | stop : Finishes .stop []
  | emit : (Finishes t tr) → Finishes (.emit e t) (e :: tr)
  | act (s : σ) : (Finishes (rest s) tr) → Finishes (.act update rest) tr

-- What is left of a process after a step.
inductive Rest : Process σ ε → Process σ ε → Prop
  | emit : Rest t (.emit e t)
  | act (s : σ) : Rest (rest s) (.act update rest)

theorem Rest.wellFounded : WellFounded (@Rest σ ε) := by
  refine ⟨fun t => ?_⟩
  induction t with
  | stop        => exact ⟨_, nofun⟩
  | emit _ _ hi => exact ⟨_, fun _ h => by cases h; exact hi⟩
  | act _ _ hi  => exact ⟨_, fun _ h => by cases h; exact hi _⟩

section Gated

variable {t : Process σ ε}

-- In all traces, the events of the kind `P` come after the events in `gate`, in their order.
def Gated (P : ε → Prop) (gate : List ε) (t : Process σ ε) : Prop :=
  ∀ tr e post, (t.Trace (tr ++ e :: post)) → (P e) → gate.Sublist tr

variable {P : ε → Prop} {gate gate' : List ε}

theorem Gated.nil : Gated P [] t :=
  fun _ _ _ _ _ => List.nil_sublist _

theorem Gated.mono (hs : gate'.Sublist gate) (h : Gated P gate t) : Gated P gate' t :=
  fun _ _ _ ht he => hs.trans (h _ _ _ ht he)

theorem Gated.stop : Gated P gate (stop : Process σ ε) := by
  intro tr e post ht
  cases tr <;> contradiction

theorem Gated.act {rest : σ → Process σ ε} (h : ∀ s, Gated P gate (rest s)) :
    Gated P gate (.act update rest) := by
  intro tr e post ht he
  generalize ho : tr ++ e :: post = all at ht
  cases ht
  case nil       => simp at ho
  case act s ht  => exact h s _ _ _ (ho ▸ ht) he

theorem Trace.of_emit (h : Trace (.emit e t) (e' :: tr)) : e' = e ∧ t.Trace tr := by
  cases h
  case emit h => exact ⟨rfl, h⟩

-- The first event of the gate.
theorem Gated.emit (hp : ¬P e) (h : Gated P gate t) : Gated P (e :: gate) (.emit e t) := by
  intro tr e' post ht he
  cases tr
  case nil        =>
    have ⟨he', _⟩ := ht.of_emit
    exact absurd (he' ▸ he) hp
  case cons e₁ tr =>
    have ⟨he₁, ht⟩ := ht.of_emit
    exact he₁ ▸ (h _ _ _ ht he).cons_cons e₁

theorem Gated.emit_other (hp : ¬P e) (h : Gated P gate t) : Gated P gate (.emit e t) :=
  (h.emit hp).mono (List.sublist_cons_self ..)

end Gated

-- The atomic steps of the process preserve a property of the shared state.
def Keeps (I : σ → Prop) : Process σ ε → Prop
  | stop            => True
  | emit _ rest     => rest.Keeps I
  | act update rest => (∀ s, I s → I (update s)) ∧ ∀ s, (rest s).Keeps I

-- The process reports no event of the kind `P` while the shared state has the property `I`.
def Avoids (I : σ → Prop) (P : ε → Prop) : Process σ ε → Prop
  | stop        => True
  | emit e rest => ¬P e ∧ rest.Avoids I P
  | act _ rest  => ∀ s, I s → (rest s).Avoids I P

variable {t : Process σ ε}

theorem Avoids.gated {P : ε → Prop} (h : t.Avoids (fun _ => True) P) : Gated P gate t := by
  induction t
  case stop            => exact .stop
  case emit hi         => exact .emit_other h.1 (hi h.2)
  case act hi          => exact .act fun s => hi s (h s trivial)

theorem avoids_iff {P : ε → Prop} : t.Avoids (fun _ => True) P ↔ ∀ tr, t.Trace tr → ∀ e ∈ tr, ¬P e := by
  constructor
  · intro h tr ht
    induction ht with
    | nil         => nofun
    | emit _ hi   => exact List.forall_mem_cons.mpr ⟨h.1, hi h.2⟩
    | act s _ hi  => exact hi (h s trivial)
  · intro h
    induction t with
    | stop => trivial
    | emit e t hi =>
      exact ⟨h [e] (.emit .nil) e List.mem_cons_self,
        hi fun tr ht e' he => h (e :: tr) (.emit ht) e' (List.mem_cons_of_mem _ he)⟩
    | act update rest hi => exact fun s _ => hi s fun tr ht => h tr (.act s ht)

theorem Avoids.mono {P : ε → Prop} (hi : ∀ s, I' s → I s) (h : t.Avoids I P) : t.Avoids I' P := by
  induction t
  case stop    => trivial
  case emit ht => exact ⟨h.1, ht h.2⟩
  case act ht  => exact fun s hs => ht s (h s (hi s hs))

-- The process comes to its end in all cases, and reports an event of the kind `P` before.
def Ends (P : ε → Prop) : Process σ ε → Prop
  | stop        => False
  | emit e rest => rest.Ends P ∨ (P e ∧ rest = stop)
  | act _ rest  => ∀ s, (rest s).Ends P

theorem Ends.mem {P : ε → Prop} (h : t.Ends P) (hf : t.Finishes tr) : ∃ e ∈ tr, P e := by
  induction hf
  case stop => contradiction
  case emit t tr e hf hi =>
    cases h
    case inl h => exact (hi h).imp fun _ h => ⟨List.mem_cons_of_mem _ h.1, h.2⟩
    case inr h => exact ⟨e, List.mem_cons_self, h.1⟩
  case act s hf hi => exact hi (h s)

theorem Ends.finishes [Nonempty σ] {P : ε → Prop} (h : t.Ends P) : ∃ tr, t.Finishes tr := by
  induction t
  case stop => contradiction
  case emit e t hi =>
    cases h
    case inl h =>
      have ⟨tr, h⟩ := hi h
      exact ⟨_, .emit h⟩
    case inr h => exact ⟨[e], h.2 ▸ .emit .stop⟩
  case act update rest hi =>
    have s : σ := Classical.ofNonempty
    have ⟨tr, h⟩ := hi s (h s)
    exact ⟨tr, .act s h⟩

end Process

-- The processes of a pool, each with a label and the events that it has reported so far.
structure Pool (σ ε κ : Type) where
  state : σ
  processes : List (κ × List ε × Process σ ε)

namespace Pool

variable {σ ε κ : Type}

-- A process starts, or some process makes its next step.
inductive Step (spawns : κ → Process σ ε → Prop) : Pool σ ε κ → Pool σ ε κ → Prop
  | spawn : (spawns k t) → Step spawns ⟨s, ts⟩ ⟨s, ts ++ [(k, [], t)]⟩
  | emit : Step spawns ⟨s, ts ++ (k, tr, .emit e t) :: ts'⟩ ⟨s, ts ++ (k, tr ++ [e], t) :: ts'⟩
  | act :
    Step spawns ⟨s, ts ++ (k, tr, .act update rest) :: ts'⟩ ⟨update s, ts ++ (k, tr, rest s) :: ts'⟩

abbrev Steps (spawns : κ → Process σ ε → Prop) : Pool σ ε κ → Pool σ ε κ → Prop :=
  Relation.ReflTransGen (Step spawns)

theorem Step.emit_single {spawns : κ → Process σ ε → Prop} {t : Process σ ε} :
    Step spawns ⟨s, [(k, tr, .emit e t)]⟩ ⟨s, [(k, tr ++ [e], t)]⟩ := by
  have h : Step spawns ⟨s, [] ++ (k, tr, .emit e t) :: []⟩ ⟨s, [] ++ (k, tr ++ [e], t) :: []⟩ := .emit
  exact h

-- What holds while the shared state has the property `I`: the processes with a label in `K` have not
-- reported an event of the kind `P`, and will not do so.
structure Guarded (I : σ → Prop) (P : ε → Prop) (K : κ → Prop) (p : Pool σ ε κ) : Prop where
  state  : I p.state
  keeps  : ∀ q ∈ p.processes, q.2.2.Keeps I
  silent : ∀ q ∈ p.processes, K q.1 → ∀ e ∈ q.2.1, ¬P e
  avoids : ∀ q ∈ p.processes, K q.1 → q.2.2.Avoids I P

variable {spawns : κ → Process σ ε → Prop} {p p' : Pool σ ε κ} {I : σ → Prop} {P : ε → Prop}
  {K : κ → Prop}

theorem Guarded.step (hk : ∀ k t, spawns k t → t.Keeps I)
    (ha : ∀ k t, spawns k t → K k → t.Avoids I P) (h : Guarded I P K p) (hs : Step spawns p p') :
    Guarded I P K p' := by
  have ⟨hi, hkeep, hsil, hav⟩ := h
  cases hs
  case spawn k t s ts hsp =>
    exact ⟨hi, List.forall_mem_append.mpr ⟨hkeep, by simpa using hk k t hsp⟩,
      List.forall_mem_append.mpr ⟨hsil, by simp⟩,
      List.forall_mem_append.mpr ⟨hav, by simpa using ha k t hsp⟩⟩
  case emit s ts k tr e t ts' =>
    simp only [List.forall_mem_append, List.forall_mem_cons] at hkeep hsil hav
    refine ⟨hi, ?_, ?_, ?_⟩ <;> simp only [List.forall_mem_append, List.forall_mem_cons]
    · exact hkeep
    · refine ⟨hsil.1, fun hK => ?_, hsil.2.2⟩
      simpa using ⟨hsil.2.1 hK, (hav.2.1 hK).1⟩
    · exact ⟨hav.1, fun hK => (hav.2.1 hK).2, hav.2.2⟩
  case act s ts k tr update rest ts' =>
    simp only [List.forall_mem_append, List.forall_mem_cons] at hkeep hsil hav
    refine ⟨hkeep.2.1.1 s hi, ?_, ?_, ?_⟩ <;> simp only [List.forall_mem_append, List.forall_mem_cons]
    · exact ⟨hkeep.1, hkeep.2.1.2 s, hkeep.2.2⟩
    · exact hsil
    · exact ⟨hav.1, fun hK => hav.2.1 hK s hi, hav.2.2⟩

theorem Guarded.steps (hk : ∀ k t, spawns k t → t.Keeps I)
    (ha : ∀ k t, spawns k t → K k → t.Avoids I P) (h : Guarded I P K p) (hs : Steps spawns p p') :
    Guarded I P K p' := by
  induction hs
  case refl         => exact h
  case tail _ hs hi => exact hi.step hk ha hs

end Pool
