import YNet.Net.ThreadPool

namespace YNet.ThreadPool

variable {τ : Type} {n : Nat} {s s' : World τ} {tr : List (Act τ)} {a : Act τ}

section Accounting

-- The tasks that have been submitted, that a worker has taken, and that have been run, in the order in
-- which this has happened.
def Act.submitted : Act τ → Option τ
  | submit task => some task
  | _           => none

def Act.taken : Act τ → Option τ
  | take _ task => some task
  | _           => none

def Act.ran : Act τ → Option τ
  | finish _ task => some task
  | _             => none

def submitted (tr : List (Act τ)) : List τ :=
  tr.filterMap Act.submitted

def taken (tr : List (Act τ)) : List τ :=
  tr.filterMap Act.taken

def ran (tr : List (Act τ)) : List τ :=
  tr.filterMap Act.ran

theorem filterMap_concat (f : Act τ → Option τ) : (tr ++ [a]).filterMap f = tr.filterMap f ++ (f a).toList := by
  rw [List.filterMap_append]
  cases h : f a <;> simp [h]

@[simp]
theorem submitted_concat : submitted (tr ++ [a]) = submitted tr ++ a.submitted.toList :=
  filterMap_concat _

@[simp]
theorem taken_concat : taken (tr ++ [a]) = taken tr ++ a.taken.toList :=
  filterMap_concat _

@[simp]
theorem ran_concat : ran (tr ++ [a]) = ran tr ++ a.ran.toList :=
  filterMap_concat _

def Worker.task : Worker τ → Multiset τ
  | running task => {task}
  | _            => 0

-- The tasks that are being run.
def World.inFlight (n : Nat) (s : World τ) : Multiset τ :=
  ∑ w ∈ Finset.range n, (s.workers w).task

theorem inFlight_setWorker (s : World τ) (worker : Worker τ) (hw : w < n) :
    (s.setWorker w worker).inFlight n + (s.workers w).task = s.inFlight n + worker.task := by
  have hm : w ∈ Finset.range n := Finset.mem_range.mpr hw
  have hother : ∑ v ∈ Finset.range n \ {w}, ((s.setWorker w worker).workers v).task =
      ∑ v ∈ Finset.range n \ {w}, (s.workers v).task := by
    refine Finset.sum_congr rfl fun v hv => ?_
    have hne : v ≠ w := by simpa using (Finset.mem_sdiff.mp hv).2
    rw [World.workers_setWorker_of_ne hne]
  rw [World.inFlight, World.inFlight, Finset.sum_eq_add_sum_sdiff_singleton_of_mem hm,
    Finset.sum_eq_add_sum_sdiff_singleton_of_mem hm (fun v => (s.workers v).task), hother,
    World.workers_setWorker_self]
  abel

end Accounting

-- What is known about a pool after the steps `tr`.
structure Inv (n : Nat) (tr : List (Act τ)) (s : World τ) : Prop where
  queue   : submitted tr = taken tr ++ s.tasks
  workers : (taken tr : Multiset τ) = ran tr + s.inFlight n
  stop    : s.stop = true → s.destroying = true
  exited  : ∀ w < n, s.workers w = .exited → s.stop = true
  drained : 0 < n → (∀ w < n, s.workers w = .exited) → s.tasks = []

namespace Inv

theorem start : Inv n [] (.start : World τ) where
  queue   := rfl
  workers := by simp [taken, ran, World.inFlight, World.start, Worker.task]
  stop    := nofun
  exited  := nofun
  drained _ _ := rfl

-- A task is added, which does not happen any more when all workers have exited.
theorem push (h : Inv n tr s) (hn : 0 < n → ∃ w < n, s.workers w ≠ .exited) :
    Inv n (tr ++ [.submit task]) (s.push task) where
  queue   := by simp [Act.submitted, Act.taken, World.push, h.queue]
  workers := by
    have hf : (s.push task).inFlight n = s.inFlight n := rfl
    rw [taken_concat, ran_concat, hf]
    simpa [Act.taken, Act.ran] using h.workers
  stop    := h.stop
  exited  := h.exited
  drained hpos hall := by
    have ⟨w, hw, hne⟩ := hn hpos
    exact absurd (hall w hw) hne

-- A worker that has not exited gets another state.
theorem exited_setWorker (h : Inv n tr s) (he : worker = .exited → s.stop = true) :
    ∀ v < n, (s.setWorker w worker).workers v = .exited → s.stop = true := by
  intro v hv hexit
  by_cases hvw : v = w
  case pos =>
    subst hvw
    exact he (World.workers_setWorker_self.symm.trans hexit)
  case neg => exact h.exited v hv ((World.workers_setWorker_of_ne hvw).symm.trans hexit)

-- A step in which no task moves.
theorem setWorker (h : Inv n tr s) (hw : w < n) (ha : a.submitted = none ∧ a.taken = none ∧ a.ran = none)
    (hold : (s.workers w).task = 0) (hnew : worker.task = 0) (he : worker = .exited → s.stop = true ∧ s.tasks = []) :
    Inv n (tr ++ [a]) (s.setWorker w worker) where
  queue   := by simpa [ha] using h.queue
  workers := by
    have hf : (s.setWorker w worker).inFlight n = s.inFlight n := by
      simpa [hold, hnew] using inFlight_setWorker s worker hw
    rw [taken_concat, ran_concat, ha.2.1, ha.2.2, hf]
    simpa using h.workers
  stop   := h.stop
  exited := h.exited_setWorker fun hexit => (he hexit).1
  drained hpos hall := (he (World.workers_setWorker_self.symm.trans (hall w hw))).2

theorem take (h : Inv n tr s) (hw : w < n) (ha : s.workers w = .awake) (ht : s.tasks = task :: tasks) :
    Inv n (tr ++ [.take w task]) ({ s with tasks }.setWorker w (.running task)) where
  queue   := by simp [Act.submitted, Act.taken, h.queue, ht]
  workers := by
    have hf : ({ s with tasks }.setWorker w (.running task)).inFlight n = s.inFlight n + {task} := by
      have hs := inFlight_setWorker { s with tasks } (.running task) hw
      rw [ha] at hs
      exact (add_zero _).symm.trans hs
    rw [taken_concat, ran_concat, hf, ← Multiset.coe_add, h.workers, ← Multiset.coe_add]
    simp [Act.taken, Act.ran, add_assoc]
  stop    := h.stop
  exited  := h.exited_setWorker nofun
  drained hpos hall := absurd (World.workers_setWorker_self.symm.trans (hall w hw)) nofun

theorem finish (h : Inv n tr s) (hw : w < n) (hr : s.workers w = .running task) :
    Inv n (tr ++ [.finish w task]) (s.setWorker w .awake) where
  queue   := by simp [Act.submitted, Act.taken, h.queue]
  workers := by
    have hf : (s.setWorker w .awake).inFlight n + {task} = s.inFlight n := by
      simpa only [hr, Worker.task, add_zero] using inFlight_setWorker s .awake hw
    have hr : ((ran tr ++ [task] : List τ) : Multiset τ) = ran tr + {task} := rfl
    rw [taken_concat, ran_concat]
    simp only [Act.taken, Act.ran, Option.toList_none, Option.toList_some, List.append_nil]
    rw [h.workers, hr, ← hf, add_right_comm, add_assoc]
  stop    := h.stop
  exited  := h.exited_setWorker nofun
  drained hpos hall := absurd (World.workers_setWorker_self.symm.trans (hall w hw)) nofun

-- A step of the destructor.
theorem flags {halt destroying : Bool} (h : Inv n tr s) (ha : a.submitted = none ∧ a.taken = none ∧ a.ran = none)
    (hd : halt = true → destroying = true) (hs : s.stop = true → halt = true) :
    Inv n (tr ++ [a]) { s with stop := halt, destroying } where
  queue   := by simpa [ha] using h.queue
  workers := by
    have hf : ({ s with stop := halt, destroying } : World τ).inFlight n = s.inFlight n := rfl
    rw [taken_concat, ran_concat, ha.2.1, ha.2.2, hf]
    simpa using h.workers
  stop    := hd
  exited w hw he := hs (h.exited w hw he)
  drained := h.drained

theorem step (h : Inv n tr s) (hs : Step n s a s') : Inv n (tr ++ [a]) s' := by
  cases hs with
  | submit hd =>
    refine h.push fun hpos => ⟨0, hpos, fun he => ?_⟩
    exact absurd (h.stop (h.exited 0 hpos he)) (by simp [hd])
  | @resubmit w task _ _ hw hr => exact h.push fun _ => ⟨w, hw, by simp [hr]⟩
  | wait hw ha hst ht => exact h.setWorker hw ⟨rfl, rfl, rfl⟩ (by simp [ha, Worker.task]) rfl nofun
  | wake hw ha => exact h.setWorker hw ⟨rfl, rfl, rfl⟩ (by simp [ha, Worker.task]) rfl nofun
  | exit hw ha hst ht => exact h.setWorker hw ⟨rfl, rfl, rfl⟩ (by simp [ha, Worker.task]) rfl fun _ => ⟨hst, ht⟩
  | take hw ha ht => exact h.take hw ha ht
  | finish hw hr => exact h.finish hw hr
  | destroy => exact h.flags ⟨rfl, rfl, rfl⟩ (fun _ => rfl) id
  | stop hd => exact h.flags ⟨rfl, rfl, rfl⟩ (fun _ => hd) fun _ => rfl

end Inv

theorem inv (h : Run (Step n) .start tr s) : Inv n tr s :=
  h.history .start fun _ _ _ _ _ hs hi => hi.step hs

-- Every task is delivered exactly once: it is taken in the order of the submissions or still in the
-- queue, and it has been run when all workers have exited.
theorem delivery (h : Run (Step n) .start tr s) :
    submitted tr = taken tr ++ s.tasks ∧
    (0 < n → (∀ w < n, s.workers w = .exited) → s.tasks = [] ∧ (ran tr).Perm (submitted tr)) := by
  have hi := inv h
  refine ⟨hi.queue, fun hpos hall => ?_⟩
  have hd := hi.drained hpos hall
  have hf : s.inFlight n = 0 :=
    Finset.sum_eq_zero fun w hw => congrArg Worker.task (hall w (Finset.mem_range.mp hw))
  have hk := hi.workers
  rw [hf, add_zero, Multiset.coe_eq_coe] at hk
  have hq := hi.queue
  rw [hd, List.append_nil] at hq
  exact ⟨hd, hq ▸ hk.symm⟩

-- A pool with one worker runs a task and is destroyed.
theorem delivery_one : ∃ s : World Nat, s.tasks = [] ∧
    (ran [.submit 7, .take 0 7, .destroy, .finish 0 7, .stop, .exit 0]).Perm [7] := by
  let s₁ : World Nat := World.start.push 7
  let s₂ : World Nat := { s₁ with tasks := [] }.setWorker 0 (.running 7)
  let s₃ : World Nat := { s₂ with destroying := true }.setWorker 0 .awake
  let s₄ : World Nat := { s₃ with stop := true }.setWorker 0 .exited
  have h : Run (Step 1) .start [.submit 7, .take 0 7, .destroy, .finish 0 7, .stop, .exit 0] s₄ :=
    .cons (.submit rfl) <| .cons (.take Nat.one_pos rfl rfl) <| .cons .destroy <|
      .cons (.finish Nat.one_pos rfl) <| .cons (.stop rfl) <| .cons (.exit Nat.one_pos rfl rfl rfl) .nil
  have hall : ∀ w < 1, s₄.workers w = .exited := by
    intro w hw
    rw [Nat.lt_one_iff.mp hw]
    rfl
  exact ⟨s₄, (delivery h).2 Nat.one_pos hall⟩

end YNet.ThreadPool
