import YNet.Net.Signals
import YNet.Net.Theorems.ThreadPool

open Finset

namespace YNet.ThreadPool

variable {τ : Type} {n k w : Nat}

section Weights

variable {s : World τ} {f : Worker τ → Nat} {worker : Worker τ}

-- The sum of the weights of the workers.
def World.weight (n : Nat) (f : Worker τ → Nat) (s : World τ) : Nat :=
  ∑ w ∈ range n, f (s.workers w)

theorem weight_setWorker (s : World τ) (f : Worker τ → Nat) (worker : Worker τ) (hw : w < n) :
    (s.setWorker w worker).weight n f + f (s.workers w) = s.weight n f + f worker := by
  have hm : w ∈ range n := mem_range.mpr hw
  have hother : ∑ v ∈ (range n).erase w, f ((s.setWorker w worker).workers v) = ∑ v ∈ (range n).erase w, f (s.workers v) :=
    sum_congr rfl fun v hv => by rw [World.workers_setWorker_of_ne (ne_of_mem_erase hv)]
  rw [World.weight, World.weight, ← sum_erase_add _ _ hm, ← sum_erase_add _ (fun v => f (s.workers v)) hm, hother,
    World.workers_setWorker_self]
  omega

theorem weight_wakeBelow_le (hf : ∀ worker : Worker τ, f worker.woken ≤ f worker) (s : World τ) (k : Nat) :
    (s.wakeBelow k).weight n f ≤ s.weight n f := by
  refine sum_le_sum fun w _ => ?_
  simp only [World.wakeBelow]
  split
  · exact hf _
  · exact le_rfl

end Weights

section Wakes

variable {s : World τ}

theorem wakeBelow_zero : s.wakeBelow 0 = s := by
  simp [World.wakeBelow]

theorem wakeBelow_succ : s.wakeBelow (k + 1) = (s.wakeBelow k).setWorker k (s.workers k).woken := by
  refine congrArg (World.mk _ _ _) (funext fun w => ?_)
  by_cases hw : w = k
  case pos => simp [hw]
  case neg =>
    have : w < k + 1 ↔ w < k := by omega
    simp [World.wakeBelow, Function.update_of_ne hw, this]

theorem ne_waiting_wakeBelow (h : w < k) : (s.wakeBelow k).workers w ≠ .waiting := by
  simp only [World.wakeBelow, if_pos h]
  cases s.workers w <;> simp [Worker.woken]

-- To notify all workers is to wake them up one after the other.
theorem run_wakeBelow (h : k ≤ n) : ∃ tr, Run (Step n) s tr (s.wakeBelow k) ∧ submitted tr = [] ∧ ran tr = [] := by
  induction k with
  | zero      => exact ⟨[], wakeBelow_zero.symm ▸ .nil, rfl, rfl⟩
  | succ k hi =>
    obtain ⟨tr, hr, hs, ht⟩ := hi (by omega)
    have hsame : (s.wakeBelow k).workers k = s.workers k := if_neg (lt_irrefl k)
    by_cases hw : s.workers k = .waiting
    case pos =>
      have hwake : Step n (s.wakeBelow k) (.wake k) (s.wakeBelow (k + 1)) := by
        rw [wakeBelow_succ, hw]
        exact .wake (by omega) (hsame.trans hw)
      refine ⟨tr ++ [.wake k], hr.append (.single hwake), ?_, ?_⟩
      · rw [submitted_concat, hs]
        rfl
      · rw [ran_concat, ht]
        rfl
    case neg =>
      have hwoken : (s.workers k).woken = (s.wakeBelow k).workers k := by
        rw [hsame]
        cases hk : s.workers k <;> simp_all [Worker.woken]
      refine ⟨tr, ?_, hs, ht⟩
      rwa [wakeBelow_succ, hwoken, World.setWorker, Function.update_eq_self]

end Wakes

namespace Signals

variable {s s' : Signals τ} {moves : List (Move τ)}

theorem acts_concat : acts (moves ++ [m]) = acts moves ++ acts [m] :=
  List.filterMap_append

theorem run_step (h : Step n s m s') : ∃ tr, Run (ThreadPool.Step n) s.toWorld tr s'.toWorld ∧
    submitted tr = submitted (acts [m]) ∧ ran tr = ran (acts [m]) := by
  cases h with
  | submit hs         => exact ⟨_, .single hs, rfl, rfl⟩
  | stop hs           => exact ⟨_, .single hs, rfl, rfl⟩
  | pool hs _ _       => exact ⟨_, .single hs, rfl, rfl⟩
  | notifyOne _ hw hs => exact ⟨_, .single (.wake hw hs), rfl, rfl⟩
  | notifyNone        => exact ⟨[], .nil, rfl, rfl⟩
  | notifyAll         => exact run_wakeBelow le_rfl

-- Apart from the notifications, the pool goes through a run of its own model.
theorem refines (h : Run (Step n) .start moves s) : ∃ tr, Run (ThreadPool.Step n) .start tr s.toWorld ∧
    submitted tr = submitted (acts moves) ∧ ran tr = ran (acts moves) := by
  refine h.history (I := fun moves s => ∃ tr, Run (ThreadPool.Step n) .start tr s.toWorld ∧
    submitted tr = submitted (acts moves) ∧ ran tr = ran (acts moves)) ⟨[], .nil, rfl, rfl⟩ ?_
  rintro moves s m s' _ hs ⟨tr, hr, hsub, hran⟩
  obtain ⟨tr', hr', hsub', hran'⟩ := run_step hs
  refine ⟨tr ++ tr', hr.append hr', ?_, ?_⟩
  · rw [acts_concat, submitted, submitted, List.filterMap_append, List.filterMap_append]
    exact congrArg₂ _ hsub hsub'
  · rw [acts_concat, ran, ran, List.filterMap_append, List.filterMap_append]
    exact congrArg₂ _ hran hran'

section Notified

-- A worker that is about to look at the queue.
def isAwake : Worker τ → Nat
  | .awake => 1
  | _      => 0

-- While some worker waits, there is another one for each task of the queue, or somebody who is about to
-- notify one.
structure Notified (n : Nat) (s : Signals τ) : Prop where
  queue : ∀ w < n, s.workers w = .waiting → s.tasks.length ≤ s.weight n isAwake + s.pending
  alarm : ∀ w < n, s.workers w = .waiting → s.stop = true → s.alarm = true

theorem waiting_of_setWorker {s : World τ} (h : (s.setWorker w worker).workers v = .waiting) (hn : worker ≠ .waiting) :
    s.workers v = .waiting := by
  by_cases hv : v = w
  case pos =>
    subst hv
    rw [World.workers_setWorker_self] at h
    exact absurd h hn
  case neg => rwa [World.workers_setWorker_of_ne hv] at h

theorem Notified.step (h : Notified n s) (hs : Step n s m s') : Notified n s' := by
  cases hs with
  | submit hs          =>
    cases hs with
    | submit | resubmit =>
      refine ⟨fun w hw hwait => ?_, h.alarm⟩
      have := h.queue w hw hwait
      simp only [World.push, List.length_append, List.length_singleton]
      exact Nat.succ_le_succ this
  | stop hs            =>
    cases hs
    exact ⟨h.queue, fun _ _ _ _ => rfl⟩
  | pool hs hsub hstop =>
    cases hs with
    | submit | resubmit => exact absurd rfl (hsub _)
    | stop              => exact absurd rfl hstop
    | destroy           => exact ⟨h.queue, h.alarm⟩
    | wait hw ha hst ht =>
      refine ⟨fun v hv hwait => ?_, fun v hv hwait hs => absurd (hst.symm.trans hs) (by simp)⟩
      simp [ht]
    | wake hw ha        =>
      refine ⟨fun v hv hwait => ?_, fun v hv hwait => h.alarm v hv (waiting_of_setWorker hwait (by simp))⟩
      have hq := h.queue v hv (waiting_of_setWorker hwait (by simp))
      have hwt := weight_setWorker s.toWorld isAwake .awake hw
      simp only [ha, isAwake, World.tasks_setWorker] at hwt hq ⊢
      omega
    | take hw ha ht     =>
      refine ⟨fun v hv hwait => ?_, fun v hv hwait => h.alarm v hv (waiting_of_setWorker hwait (by simp))⟩
      have hq := h.queue v hv (waiting_of_setWorker hwait (by simp))
      rename_i task tasks
      have hwt := weight_setWorker { s.toWorld with tasks } isAwake (.running task) hw
      have hsame : World.weight n isAwake { s.toWorld with tasks } = s.weight n isAwake := rfl
      simp only [ha, ht, hsame, isAwake, List.length_cons, World.tasks_setWorker] at hwt hq ⊢
      omega
    | finish hw hr      =>
      refine ⟨fun v hv hwait => ?_, fun v hv hwait => h.alarm v hv (waiting_of_setWorker hwait (by simp))⟩
      have hq := h.queue v hv (waiting_of_setWorker hwait (by simp))
      have hwt := weight_setWorker s.toWorld isAwake .awake hw
      simp only [hr, isAwake, World.tasks_setWorker] at hwt hq ⊢
      omega
    | exit hw ha hst ht =>
      refine ⟨fun v hv hwait => ?_, fun v hv hwait => h.alarm v hv (waiting_of_setWorker hwait (by simp))⟩
      simp [ht]
  | notifyOne hp hw hs =>
    refine ⟨fun v hv hwait => ?_, fun v hv hwait => h.alarm v hv (waiting_of_setWorker hwait (by simp))⟩
    have hq := h.queue v hv (waiting_of_setWorker hwait (by simp))
    have hwt := weight_setWorker s.toWorld isAwake .awake hw
    simp only [hs, hp, isAwake, World.tasks_setWorker] at hwt hq ⊢
    omega
  | notifyNone hp hno  => exact ⟨fun w hw hs => absurd hs (hno w hw), fun w hw hs => absurd hs (hno w hw)⟩
  | notifyAll ha       =>
    exact ⟨fun w hw hs => absurd hs (ne_waiting_wakeBelow hw), fun w hw hs => absurd hs (ne_waiting_wakeBelow hw)⟩

theorem Notified.of_run (h : Run (Step n) .start moves s) : Notified n s :=
  h.invariant (I := Notified n) ⟨nofun, nofun⟩ fun _ _ _ hs hi => hi.step hs

theorem weight_eq_zero {s : World τ} (h : ∀ w < n, s.workers w = .waiting ∨ s.workers w = .exited) :
    s.weight n isAwake = 0 :=
  sum_eq_zero fun w hw => by rcases h w (mem_range.mp hw) with hw | hw <;> rw [hw] <;> rfl

-- No notification is lost: if all workers have gone to sleep or exited, and nobody is about to notify them, then there
-- is nothing to be done. They sleep as long as the pool is in use, and have exited when it is destroyed.
theorem quiescent (h : Run (Step n) .start moves s) (hn : 0 < n) (hp : s.pending = 0) (ha : s.alarm = false)
    (hw : ∀ w < n, s.workers w = .waiting ∨ s.workers w = .exited) :
    s.tasks = [] ∧ (∀ w < n, s.workers w = if s.stop then .exited else .waiting) := by
  have hnot := Notified.of_run h
  obtain ⟨tr, hr, _⟩ := refines h
  have hi := inv hr
  by_cases hwait : ∃ w < n, s.workers w = .waiting
  case pos =>
    obtain ⟨w, hlt, hwait⟩ := hwait
    have hq := hnot.queue w hlt hwait
    have hs : s.stop = false := Bool.eq_false_iff.mpr fun hs => by simp [hnot.alarm w hlt hwait hs] at ha
    rw [weight_eq_zero hw, hp] at hq
    refine ⟨List.length_eq_zero_iff.mp (Nat.le_zero.mp hq), fun v hv => ?_⟩
    rw [hs]
    exact (hw v hv).resolve_right fun he => by simp [hi.exited v hv he] at hs
  case neg =>
    have hall : ∀ w < n, s.workers w = .exited := fun w hlt => (hw w hlt).resolve_left fun he => hwait ⟨w, hlt, he⟩
    refine ⟨hi.drained hn hall, fun v hv => ?_⟩
    rw [hi.exited v hv (hall v hv)]
    exact hall v hv

-- A worker that sleeps is notified of a task, and sleeps again.
theorem quiescent_one : ∃ s : Signals Nat, Run (Step 1) .start [.pool (.wait 0), .pool (.submit 7), .notifyOne (some 0),
    .pool (.take 0 7), .pool (.finish 0 7), .pool (.wait 0)] s ∧ s.tasks = [] := by
  have h : ∃ s : Signals Nat, Run (Step 1) .start [.pool (.wait 0), .pool (.submit 7), .notifyOne (some 0),
      .pool (.take 0 7), .pool (.finish 0 7), .pool (.wait 0)] s ∧ s.pending = 0 ∧ s.alarm = false ∧
      s.workers 0 = .waiting :=
    ⟨_, .cons (.pool (.wait Nat.one_pos rfl rfl rfl) (by simp) (by simp)) (.cons (.submit (.submit rfl))
      (.cons (.notifyOne rfl Nat.one_pos rfl) (.cons (.pool (.take Nat.one_pos rfl rfl) (by simp) (by simp))
      (.cons (.pool (.finish Nat.one_pos rfl) (by simp) (by simp))
      (.single (.pool (.wait Nat.one_pos rfl rfl rfl) (by simp) (by simp))))))), rfl, rfl, rfl⟩
  obtain ⟨s, hr, hp, ha, hw⟩ := h
  exact ⟨s, hr, (quiescent hr Nat.one_pos hp ha fun w hlt => .inl (Nat.lt_one_iff.mp hlt ▸ hw)).1⟩

end Notified

section Shutdown

-- The moves of the workers and of those who notify them. No task is submitted any more.
def Move.IsWork : Move τ → Prop
  | .pool (.submit _) | .pool .destroy | .pool .stop => False
  | _                                               => True

def rank : Worker τ → Nat
  | .exited    => 0
  | .awake     => 1
  | .running _ => 2
  | .waiting   => 2

-- What is left to be done when the pool is stopped.
def work (n : Nat) (s : Signals τ) : Nat :=
  2 * s.tasks.length + s.weight n rank + s.pending + s.alarm.toNat

theorem work_lt (hs : s.stop = true) (hm : m.IsWork) (h : Step n s m s') : work n s' < work n s ∧ s'.stop = true := by
  cases h with
  | submit             => exact absurd hm id
  | stop               => exact absurd hm id
  | notifyNone hp _    => exact ⟨by simp only [work, hp]; omega, hs⟩
  | notifyAll ha       =>
    have hle : (s.wakeBelow n).weight n rank ≤ s.weight n rank :=
      weight_wakeBelow_le (fun worker => by cases worker <;> simp [rank, Worker.woken]) s.toWorld n
    refine ⟨?_, hs⟩
    simp only [work, ha, Bool.toNat_true, Bool.toNat_false]
    have ht : (s.wakeBelow n).tasks = s.tasks := rfl
    rw [ht]
    omega
  | notifyOne hp hw hwait =>
    have hwt := weight_setWorker s.toWorld rank .awake hw
    refine ⟨?_, hs⟩
    simp only [hwait, hp, rank, work, World.tasks_setWorker] at hwt ⊢
    omega
  | pool h hsub hstop  =>
    cases h with
    | submit | resubmit => exact absurd rfl (hsub _)
    | stop              => exact absurd rfl hstop
    | destroy           => exact absurd hm id
    | wait hw ha hst ht => exact absurd (hst.symm.trans hs) (by simp)
    | wake hw ha        =>
      have hwt := weight_setWorker s.toWorld rank .awake hw
      refine ⟨?_, hs⟩
      simp only [ha, rank, work, World.tasks_setWorker] at hwt ⊢
      omega
    | take hw ha ht     =>
      rename_i task tasks
      have hwt := weight_setWorker { s.toWorld with tasks } rank (.running task) hw
      have hsame : World.weight n rank { s.toWorld with tasks } = s.weight n rank := rfl
      refine ⟨?_, hs⟩
      simp only [ha, ht, hsame, rank, work, List.length_cons, World.tasks_setWorker] at hwt ⊢
      omega
    | finish hw hr      =>
      have hwt := weight_setWorker s.toWorld rank .awake hw
      refine ⟨?_, hs⟩
      simp only [hr, rank, work, World.tasks_setWorker] at hwt ⊢
      omega
    | exit hw ha hst ht =>
      have hwt := weight_setWorker s.toWorld rank .exited hw
      refine ⟨?_, hs⟩
      simp only [ha, rank, work, World.tasks_setWorker] at hwt ⊢
      omega

theorem length_le (hs : s.stop = true) (h : Run (Step n) s moves s') (hm : ∀ m ∈ moves, m.IsWork) :
    moves.length + work n s' ≤ work n s ∧ s'.stop = true := by
  induction h with
  | nil             => exact ⟨by simp, hs⟩
  | cons hstep _ hi =>
    rw [List.forall_mem_cons] at hm
    obtain ⟨hlt, hs⟩ := work_lt hs hm.1 hstep
    obtain ⟨hle, hs⟩ := hi hs hm.2
    exact ⟨by rw [List.length_cons]; omega, hs⟩

-- A worker that has not exited goes on by itself, unless it waits.
theorem exists_step (hs : s.stop = true) (hw : w < n) (hne : s.workers w ≠ .exited) (hwait : s.workers w ≠ .waiting) :
    ∃ m s', m.IsWork ∧ (∀ v, m ≠ .pool (.wake v)) ∧ Step n s m s' := by
  cases hk : s.workers w with
  | exited       => exact absurd hk hne
  | waiting      => exact absurd hk hwait
  | running task => exact ⟨.pool (.finish w task), _, trivial, by simp, .pool (.finish hw hk) (by simp) (by simp)⟩
  | awake        =>
    cases ht : s.tasks with
    | nil            => exact ⟨.pool (.exit w), _, trivial, by simp, .pool (.exit hw hk hs ht) (by simp) (by simp)⟩
    | cons task rest => exact ⟨.pool (.take w task), _, trivial, by simp, .pool (.take hw hk ht) (by simp) (by simp)⟩

-- The destructor comes to its end: when the pool has been stopped and no more tasks are submitted, only boundedly many
-- moves are left. If none is left, spurious wake-ups aside, all workers have exited and every task has been run.
theorem shutdown (h : Run (Step n) .start moves s) (hs : s.stop = true) (h' : Run (Step n) s moves' s')
    (hm : ∀ m ∈ moves', m.IsWork) : moves'.length ≤ work n s ∧
    ((∀ m s'', m.IsWork → (∀ v, m ≠ .pool (.wake v)) → ¬Step n s' m s'') → (∀ w < n, s'.workers w = .exited) ∧
      (0 < n → s'.tasks = [] ∧ (ran (acts (moves ++ moves'))).Perm (submitted (acts (moves ++ moves'))))) := by
  obtain ⟨hle, hs'⟩ := length_le hs h' hm
  refine ⟨by omega, fun hstuck => ?_⟩
  have hall := h.append h'
  have hnot := Notified.of_run hall
  have hexit : ∀ w < n, s'.workers w = .exited := by
    intro w hw
    by_contra hne
    by_cases hwait : s'.workers w = .waiting
    case pos => exact hstuck .notifyAll _ trivial (by simp) (.notifyAll (hnot.alarm w hw hwait hs'))
    case neg =>
      obtain ⟨m, s'', hm, hv, hstep⟩ := exists_step hs' hw hne hwait
      exact hstuck m s'' hm hv hstep
  refine ⟨hexit, fun hn => ?_⟩
  obtain ⟨tr, hr, hsub, hran⟩ := refines hall
  have hi := inv hr
  have hd := hi.drained hn hexit
  have hf : s'.inFlight n = 0 :=
    sum_eq_zero fun w hw => congrArg Worker.task (hexit w (mem_range.mp hw))
  have hk := hi.workers
  have hq := hi.queue
  rw [hf, add_zero, Multiset.coe_eq_coe] at hk
  rw [hd, List.append_nil] at hq
  rw [← hsub, ← hran, hq]
  exact ⟨hd, hk.symm⟩

theorem not_step_of_exited (hw : ∀ w < n, s.workers w = .exited) (hp : s.pending = 0) (ha : s.alarm = false) {m : Move τ}
    (hm : m.IsWork) : ¬Step n s m s' := by
  have hne {w : Nat} {worker : Worker τ} (hlt : w < n) (hk : s.workers w = worker) : worker = .exited :=
    hk.symm.trans (hw w hlt)
  intro h
  cases h with
  | submit             => exact hm
  | stop               => exact hm
  | notifyOne hk       => exact absurd (hp.symm.trans hk) (Nat.succ_ne_zero _).symm
  | notifyNone hk      => exact absurd (hp.symm.trans hk) (Nat.succ_ne_zero _).symm
  | notifyAll hk       => exact absurd (ha.symm.trans hk) Bool.false_ne_true
  | pool h _ _         =>
    cases h with
    | submit | resubmit | destroy | stop => exact hm
    | wait hlt hk _ _                    => exact nomatch hne hlt hk
    | wake hlt hk                        => exact nomatch hne hlt hk
    | take hlt hk _                      => exact nomatch hne hlt hk
    | finish hlt hk                      => exact nomatch hne hlt hk
    | exit hlt hk _ _                    => exact nomatch hne hlt hk

-- The pool is stopped while two tasks are in the queue and the worker sleeps.
def stopping : List (Move Nat) :=
  [.pool (.wait 0), .pool (.submit 7), .pool (.submit 8), .pool .destroy, .pool .stop]

def emptying : List (Move Nat) :=
  [.notifyAll, .notifyOne none, .notifyOne none, .pool (.take 0 7), .pool (.finish 0 7), .pool (.take 0 8),
    .pool (.finish 0 8), .pool (.exit 0)]

theorem run_stopping : ∃ s : Signals Nat, Run (Step 1) .start stopping s ∧ s.tasks = [7, 8] ∧ s.stop = true ∧
    ∃ s', Run (Step 1) s emptying s' ∧ s'.workers 0 = .exited ∧ s'.pending = 0 ∧ s'.alarm = false := by
  refine ⟨_, .cons (.pool (.wait Nat.one_pos rfl rfl rfl) (by simp) (by simp)) <| .cons (.submit (.submit rfl)) <|
    .cons (.submit (.submit rfl)) <| .cons (.pool .destroy (by simp) (by simp)) <| .single (.stop (.stop rfl)),
    rfl, rfl, ?_⟩
  exact ⟨_, .cons (.notifyAll rfl) <| .cons (.notifyNone rfl fun _ => ne_waiting_wakeBelow) <|
    .cons (.notifyNone rfl fun _ => ne_waiting_wakeBelow) <|
    .cons (.pool (.take Nat.one_pos rfl rfl) (by simp) (by simp)) <|
    .cons (.pool (.finish Nat.one_pos rfl) (by simp) (by simp)) <|
    .cons (.pool (.take Nat.one_pos rfl rfl) (by simp) (by simp)) <|
    .cons (.pool (.finish Nat.one_pos rfl) (by simp) (by simp)) <|
    .single (.pool (.exit Nat.one_pos rfl rfl rfl) (by simp) (by simp)), rfl, rfl, rfl⟩

theorem shutdown_one : ∃ s s' : Signals Nat, Run (Step 1) .start stopping s ∧ s.tasks = [7, 8] ∧
    Run (Step 1) s emptying s' ∧ 8 ≤ work 1 s ∧ s'.tasks = [] ∧
    (ran (acts (stopping ++ emptying))).Perm (submitted (acts (stopping ++ emptying))) := by
  obtain ⟨s, hr, ht, hs, s', hr', hw, hp, ha⟩ := run_stopping
  obtain ⟨hle, hend⟩ := shutdown hr hs hr' (by simp [emptying, Move.IsWork])
  have hexit : ∀ w < 1, s'.workers w = .exited := fun w hlt => Nat.lt_one_iff.mp hlt ▸ hw
  exact ⟨s, s', hr, ht, hr', hle, (hend fun _ _ hm _ => not_step_of_exited hexit hp ha hm).2 Nat.one_pos⟩

end Shutdown

end Signals

end YNet.ThreadPool
