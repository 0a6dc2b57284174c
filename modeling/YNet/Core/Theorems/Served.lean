import YNet.Core.Theorems.System
import YNet.Lib.Execution

open Process

namespace YNet

namespace Workers

variable {s s' : World} {n : Nat}

-- A handler can close its connection once.
def Stage.toClose : Stage → Nat
  | .closed => 0
  | _       => 1

theorem tasks_of_step (h : Workers.Step n s a s') (ha : ¬a.IsWorker) : ∃ new, s'.tasks = s.tasks ++ new := by
  cases h with
  | submit => exact ⟨_, rfl⟩
  | take   => exact absurd trivial ha
  | _      => exact ⟨[], (List.append_nil _).symm⟩

theorem World.tasks_report (s : World) (w : Nat) (job : Job) (e : YNet.Event) : (s.report w job e).tasks = s.tasks := by
  cases e <;> rfl

end Workers

namespace System

variable {σ : Type} {server : Server σ} {app : σ} {s s' : System σ} {n w w' : Nat} {call : RequestCall σ}
  {job : Workers.Job} {task : Workers.Task} {moves : List Move}

-- The worker that makes a move.
def Move.worker : Move → Option Nat
  | .world _                                                  => none
  | .take w | .app w | .report w _ _ | .close w | .finish w => some w

def Move.IsTake (m : Move) : Prop :=
  ∃ w, m = .take w

-- No worker stops while it can go on.
def Fair (x : Execution (Step server n) s) : Prop :=
  ∀ w, x.Fair fun m => m.worker = some w

theorem calls_of_setCall (h : (s.setCall w new).calls w' = some call) : w' = w ∧ new = some call ∨ s.calls w' = some call := by
  by_cases he : w' = w
  case pos => exact .inl ⟨he, calls_setCall.symm.trans (he ▸ h)⟩
  case neg => exact .inr ((calls_setCall_of_ne he).symm.trans h)

-- A worker is not disturbed by the others.
theorem frame (h : Step server n s m s') (hm : m.worker ≠ some w) :
    s'.calls w = s.calls w ∧ s'.world.workers w = s.world.workers w := by
  have ne {w'} (h : some w' ≠ some w) : w ≠ w' := fun he => h (congrArg some he.symm)
  cases h with
  | world hw ha      => exact ⟨rfl, congrFun (Workers.workers_of_step hw ha) w⟩
  | take conn hw     =>
    refine ⟨calls_setCall_of_ne (ne hm), ?_⟩
    cases hw
    exact Function.update_of_ne (ne hm) ..
  | app              => exact ⟨calls_setCall_of_ne (ne hm), rfl⟩
  | report hcall hw  => exact ⟨calls_setCall_of_ne (ne hm), Workers.workers_report_of_ne (ne hm)⟩
  | close            => exact ⟨rfl, Function.update_of_ne (ne hm) ..⟩
  | finish           => exact ⟨calls_setCall_of_ne (ne hm), Function.update_of_ne (ne hm) ..⟩

theorem tasks_of_step (h : Step server n s m s') (hm : ∀ w, m ≠ .take w) : ∃ new, s'.world.tasks = s.world.tasks ++ new := by
  have same (h : s'.world.tasks = s.world.tasks) : ∃ new, s'.world.tasks = s.world.tasks ++ new :=
    ⟨[], h.trans (List.append_nil _).symm⟩
  cases h with
  | world hw ha => exact Workers.tasks_of_step hw ha
  | take        => exact absurd rfl (hm _)
  | report      => exact same (Workers.World.tasks_report ..)
  | _           => exact same rfl

section Calls

-- Where the call of a worker comes from in a step.
inductive Origin (server : Server σ) (s : System σ) (m : Move) (w : Nat) : RequestCall σ → Prop
  | same {call : RequestCall σ} : s.calls w = some call → Origin server s m w call
  | take (conn : Connection) : Origin server s m w ⟨[], server.handleRequest conn⟩
  | app {events update rest} :
    s.calls w = some ⟨events, .act update rest⟩ → Origin server s m w ⟨events, rest s.app⟩
  | report {events e t} {task : Workers.Task} :
    s.calls w = some ⟨events, .emit e t⟩ → m = .report w task e → Origin server s m w ⟨events ++ [e], t⟩

theorem Origin.of_step (h : Step server n s m s') (hcall : s'.calls w = some call) : Origin server s m w call := by
  cases h with
  | world | close   => exact .same hcall
  | take conn       =>
    rcases calls_of_setCall hcall with ⟨_, hnew⟩ | hold
    · cases hnew
      exact .take conn
    · exact .same hold
  | app hc          =>
    rcases calls_of_setCall hcall with ⟨rfl, hnew⟩ | hold
    · cases hnew
      exact .app hc
    · exact .same hold
  | report hc       =>
    rcases calls_of_setCall hcall with ⟨rfl, hnew⟩ | hold
    · cases hnew
      exact .report hc rfl
    · exact .same hold
  | finish          =>
    rcases calls_of_setCall hcall with ⟨_, hnew⟩ | hold
    · contradiction
    · exact .same hold

-- The code of a call has an end, and its last event is an answer or the end of the program.
def Ends (call : RequestCall σ) : Prop :=
  ∃ q, after Phase.next .reading call.events = some q ∧ call.process.Obeys Phase.next Phase.IsLast q

theorem ends_of_run (hh : server.Halts) (h : Run (Step server n) (.start app) moves s) :
    ∀ w call, s.calls w = some call → Ends call := by
  refine h.invariant (I := fun s => ∀ w call, s.calls w = some call → Ends call) nofun fun s m s' hs hi => ?_
  intro w call hcall
  cases Origin.of_step hs hcall with
  | same hc     => exact hi w call hc
  | take conn   => exact ⟨.reading, rfl, Server.handleRequest_obeys (.inl hh) (fun _ => id) conn⟩
  | app hc      =>
    have ⟨q, hq, hp⟩ := hi w _ hc
    exact ⟨q, hq, hp s.app⟩
  | report hc _ =>
    have ⟨q, hq, q', hn, hp⟩ := hi w _ hc
    exact ⟨q', by rw [after_concat, hq]; exact hn, hp⟩

theorem getLast?_of_isLast (h : after Phase.next .reading events = some q) (hq : q.IsLast) (ht : Event.terminate ∉ events) :
    events.getLast? = some .erase ∨ events.getLast? = some .rearm := by
  cases events using List.reverseRecOn with
  | nil                   =>
    cases h
    contradiction
  | append_singleton tr e =>
    rw [after_concat] at h
    have ⟨p, _, hp⟩ := Option.bind_eq_some_iff.mp h
    rw [List.getLast?_concat]
    cases p <;> cases e <;> cases hp <;> first | contradiction | exact .inl rfl | exact .inr rfl | simp at ht

-- A worker with a call can go on.
theorem exists_move (hc : Calls s) (he : Ends call) (ht : .terminate ∉ call.events) (hcall : s.calls w = some call) :
    ∃ m s', Move.worker m = some w ∧ Step server n s m s' := by
  have ⟨job, hw, _⟩ := hc.exists_job hcall
  obtain ⟨events, t⟩ := call
  cases t with
  | stop          =>
    have ⟨q, hq, hl⟩ := he
    exact ⟨_, _, rfl, .finish hcall (getLast?_of_isLast hq hl ht)⟩
  | emit e t      => exact ⟨_, _, rfl, .report hcall hw⟩
  | act update t  => exact ⟨_, _, rfl, .app hcall⟩

-- With each of its moves a worker comes nearer to the end of its call.
theorem step_call (hs : Workers.Shut s.world) (h : Step server n s m s') (hm : m.worker = some w)
    (hcall : s.calls w = some call) (hw : s.world.workers w = some job) : m = .finish w ∨ ∃ call' job',
      s'.calls w = some call' ∧ s'.world.workers w = some job' ∧ job'.toTask = job.toTask ∧
      Prod.Lex Rest (· < ·) (call'.process, job'.stage.toClose) (call.process, job.stage.toClose) := by
  cases h with
  | world                => cases hm
  | finish               => cases hm; exact .inl rfl
  | take conn hwork      =>
    cases hm
    cases hwork with | take _ _ hidle => exact absurd (hw.symm.trans hidle) (by simp)
  | app hc               =>
    cases hm
    cases hcall.symm.trans hc
    exact .inr ⟨_, job, calls_setCall, hw, rfl, .left _ _ (.act s.app)⟩
  | report hc hj         =>
    cases hm
    cases hcall.symm.trans hc
    cases hw.symm.trans hj
    exact .inr ⟨_, _, calls_setCall, Workers.workers_report hw, rfl, .left _ _ .emit⟩
  | close hc _ hj hopen  =>
    cases hm
    cases hw.symm.trans hj
    refine .inr ⟨call, _, hcall, Function.update_self .., rfl, .right _ ?_⟩
    cases hst : job.stage with
    | closed => exact absurd hopen (hs _ _ hw hst)
    | _      => exact Nat.one_pos

end Calls

section Executions

variable {x : Execution (Step server n) (.start app)}

theorem calls_state (x : Execution (Step server n) (.start app)) (i : Nat) : Calls (x.state i) :=
  (Calls.of_run (x.run i)).2

theorem shut_state (x : Execution (Step server n) (.start app)) (i : Nat) : Workers.Shut (x.state i).world :=
  .of_run (Calls.of_run (x.run i)).1

theorem terminate_not_mem (ht : ∀ i w task, x.label i ≠ .report w task .terminate) (i : Nat) :
    ∀ w call, (x.state i).calls w = some call → .terminate ∉ call.events := by
  induction i with
  | zero      =>
    rw [x.state_zero]
    nofun
  | succ i hi =>
    intro w call hcall
    cases Origin.of_step (x.step i) hcall with
    | same hc      => exact hi w call hc
    | take         => exact List.not_mem_nil
    | app hc       =>
      have hmem := hi w _ hc
      exact hmem
    | report hc hm =>
      rw [List.mem_append, List.mem_singleton]
      rintro (hmem | rfl)
      · exact hi w _ hc hmem
      · exact ht i _ _ hm

-- The worker is on the task up to the time at which its call returns.
def Returns (x : Execution (Step server n) (.start app)) (w : Nat) (task : Workers.Task) (i j : Nat) : Prop :=
  i ≤ j ∧ x.label j = .finish w ∧ ∀ k ≥ i, k ≤ j → ∃ job, (x.state k).world.workers w = some job ∧ job.toTask = task

theorem returns (hh : server.Halts) (hf : Fair x) (ht : ∀ i w task, x.label i ≠ .report w task .terminate)
    (hcall : (x.state i).calls w = some call) (hw : (x.state i).world.workers w = some job) :
    ∃ j, Returns x w job.toTask i j := by
  refine Execution.leads_to (WellFounded.prod_lex Rest.wellFounded Nat.lt_wfRel.wf)
    (Q := fun a i => ∃ call job', (x.state i).calls w = some call ∧ (x.state i).world.workers w = some job' ∧
      job'.toTask = job.toTask ∧ a = (call.process, job'.stage.toClose)) ?_ ⟨call, job, hcall, hw, rfl, rfl⟩
  rintro _ i ⟨call, job', hcall, hw, htask, rfl⟩
  have hkeep (j) (h : (x.state j).calls w = some call ∧ (x.state j).world.workers w = some job') :
      (x.label j).worker = some w ∨ (x.state (j + 1)).calls w = some call ∧ (x.state (j + 1)).world.workers w = some job' := by
    refine or_iff_not_imp_left.mpr fun hn => ?_
    have ⟨hc', hw'⟩ := frame (x.step j) hn
    exact ⟨hc'.trans h.1, hw'.trans h.2⟩
  obtain ⟨j, hij, hm, hk⟩ := (hf w).until ⟨hcall, hw⟩ (fun j _ => hkeep j) fun j _ ⟨hc, _⟩ =>
    exists_move (calls_state x j) (ends_of_run hh (x.run j) w call hc) (terminate_not_mem ht j w call hc) hc
  have hstay (k) (hik : k ≥ i) (hkj : k ≤ j) : ∃ job', (x.state k).world.workers w = some job' ∧ job'.toTask = job.toTask :=
    ⟨job', (hk k hik hkj).2, htask⟩
  have ⟨hcj, hwj⟩ := hk j hij le_rfl
  rcases step_call (shut_state x j) (x.step j) hm hcj hwj with he | ⟨call', job'', hc', hw', ht', hlt⟩
  · exact .inl ⟨j, hij, he, hstay⟩
  · refine .inr ⟨_, j + 1, hlt, ⟨call', job'', hc', hw', ht'.trans htask, rfl⟩, fun l ⟨hjl, he, hstay'⟩ => ?_⟩
    refine ⟨hij.trans (Nat.le_of_succ_le hjl), he, fun k hik hkl => ?_⟩
    exact (Nat.lt_or_ge j k).elim (fun h => hstay' k h hkl) fun h => hstay k hik h

theorem take_of_idle (hc : Calls s) (h : Step server n s m s') (hm : m.worker = some w) (hw : s.world.workers w = none) :
    m = .take w := by
  have hr := hc w
  rw [hw] at hr
  generalize hcall : s.calls w = call at hr
  cases hr
  cases h <;> cases hm
  case none.take.refl => rfl
  all_goals simp_all

theorem of_take (h : Step server n s (.take w) s') : ∃ call task stage rest, s.world.tasks = task :: rest ∧
    s'.world.tasks = rest ∧ s'.calls w = some call ∧ s'.world.workers w = some ⟨task, stage⟩ := by
  cases h with
  | take conn hw =>
    cases hw with
    | take hq _ _ => exact ⟨_, _, _, _, hq, rfl, calls_setCall, Function.update_self ..⟩

theorem workers_finish (h : Step server n s (.finish w) s') : s'.world.workers w = none := by
  cases h with
  | finish => exact Function.update_self ..

section Fairness

variable (hh : server.Halts) (hf : Fair x) (ht : ∀ i w task, x.label i ≠ .report w task .terminate)
include hh hf ht

theorem exists_idle (w i : Nat) : ∃ j ≥ i, (x.state j).world.workers w = none := by
  have hr := calls_state x i w
  generalize hc : (x.state i).calls w = call, hw : (x.state i).world.workers w = job at hr
  cases hr with
  | none   => exact ⟨i, le_rfl, hw⟩
  | some _ =>
    have ⟨j, hij, hfin, _⟩ := returns hh hf ht hc hw
    exact ⟨j + 1, Nat.le_succ_of_le hij, workers_finish (hfin ▸ x.step j)⟩

-- While there are tasks, one of them is taken.
theorem exists_take (hn : 0 < n) (hq : (x.state i).world.tasks ≠ []) :
    ∃ j ≥ i, ∃ w, x.label j = .take w ∧ (x.state i).world.tasks <+: (x.state j).world.tasks := by
  have hkeep (j) (_ : j ≥ i) (h : (x.state i).world.tasks <+: (x.state j).world.tasks) :
      (x.label j).IsTake ∨ (x.state i).world.tasks <+: (x.state (j + 1)).world.tasks := by
    refine or_iff_not_imp_left.mpr fun hno => ?_
    have ⟨new, hnew⟩ := tasks_of_step (x.step j) fun w hl => hno ⟨w, hl⟩
    exact hnew ▸ h.trans (List.prefix_append ..)
  have hex : ∃ j ≥ i, (x.label j).IsTake := by
    by_contra hno
    have hne (j) (hij : j ≥ i) : (x.state j).world.tasks ≠ [] := by
      have h := Execution.holds_until (List.prefix_refl _) hkeep hij fun k hk _ hw => hno ⟨k, hk, hw⟩
      exact h.ne_nil hq
    have ⟨j, hij, hidle⟩ := exists_idle hh hf ht 0 i
    have ⟨k, hjk, hm, hk⟩ := (hf 0).until (P := fun k => (x.state k).world.workers 0 = none) hidle
      (fun k _ hw => or_iff_not_imp_left.mpr fun hn => (frame (x.step k) hn).2.trans hw) fun k hjk hw => by
        have ⟨task, rest, hq⟩ := List.exists_cons_of_ne_nil (hne k (hij.trans hjk))
        exact ⟨_, _, rfl, .take ⟨[], none, []⟩ (.take hq hn hw)⟩
    exact hno ⟨k, hij.trans hjk, 0, take_of_idle (calls_state x k) (x.step k) hm (hk k hjk le_rfl)⟩
  have ⟨j, hij, ⟨w, hl⟩, h⟩ := Execution.exists_first hex (List.prefix_refl _) hkeep
  exact ⟨j, hij, w, hl, h j hij le_rfl⟩

-- The tasks before a task are taken, and then the task is.
theorem exists_taken (hn : 0 < n) {p : Nat} (hq : (x.state i).world.tasks[p]? = some task) :
    ∃ j ≥ i, ∃ w, x.label j = .take w ∧ (x.state j).world.tasks.head? = some task := by
  induction p generalizing i with
  | zero      =>
    have hne : (x.state i).world.tasks ≠ [] := by
      intro he
      simp [he] at hq
    have ⟨j, hij, w, hl, new, h⟩ := exists_take hh hf ht hn hne
    refine ⟨j, hij, w, hl, ?_⟩
    rw [← h, List.head?_append_of_ne_nil _ hne, ← hq, List.head?_eq_getElem?]
  | succ p hi =>
    have ⟨hlt, _⟩ := List.getElem?_eq_some_iff.mp hq
    have ⟨j, hij, w, hl, new, h⟩ := exists_take hh hf ht hn (List.ne_nil_of_length_pos (Nat.zero_lt_of_lt hlt))
    have ⟨_, first, _, rest, hj, hj', _⟩ := of_take (hl ▸ x.step j)
    have hleft : ((x.state i).world.tasks ++ new)[p + 1]? = (x.state i).world.tasks[p + 1]? := List.getElem?_append_left hlt
    have hp : (x.state (j + 1)).world.tasks[p]? = some task := by
      rw [← hq, ← hleft, h, hj, hj', List.getElem?_cons_succ]
    have ⟨k, hjk, hk⟩ := hi hp
    exact ⟨k, (Nat.le_succ_of_le hij).trans hjk, hk⟩

-- If no worker stops while it can go on, and the program is not terminated, each task that is submitted is taken
-- by a worker, which then is on it until its call returns.
theorem served (hn : 0 < n) (hq : task ∈ (x.state i).world.tasks) :
    ∃ j ≥ i, ∃ w, x.label j = .take w ∧ (x.state j).world.tasks.head? = some task ∧ ∃ j', Returns x w task (j + 1) j' := by
  have ⟨p, hp⟩ := List.mem_iff_getElem?.mp hq
  have ⟨j, hij, w, hl, hj⟩ := exists_taken hh hf ht hn hp
  have ⟨call, task', stage, rest, htasks, _, hcall, hw⟩ := of_take (hl ▸ x.step j)
  have he : task' = task := by
    rw [htasks] at hj
    exact Option.some.inj hj
  subst he
  exact ⟨j, hij, w, hl, hj, returns hh hf ht hcall hw⟩

end Fairness

end Executions

section Witness

theorem not_step_of_idle (ht : s.world.tasks = []) (hn : ∀ w, s.calls w = none) (hm : m.worker = some w) :
    ¬Step server n s m s' := by
  intro h
  cases h with
  | world             => cases hm
  | take _ hw         =>
    cases hw with
    | take hq _ _ => exact absurd (ht.symm.trans hq) (by simp)
  | app hc            => exact absurd ((hn _).symm.trans hc) (by simp)
  | report hc         => exact absurd ((hn _).symm.trans hc) (by simp)
  | close hc          => exact absurd ((hn _).symm.trans hc) (by simp)
  | finish hc         => exact absurd ((hn _).symm.trans hc) (by simp)

theorem bare_halts : bare.Halts where
  middlewares   := nofun
  routes        := nofun
  wsRoutes      := nofun
  errorHandlers := nofun

-- After the visit of a client the server is stopped.
theorem exists_visit : ∃ x : Execution (Step bare 1) (.start ()), Fair x ∧
    (∀ i w task, x.label i ≠ .report w task .terminate) ∧ x.label 8 = .world .submit := by
  obtain ⟨s, hr, ht, hn⟩ := run_visit
  obtain ⟨x, hl, hx⟩ := Execution.exists_of_run (hr.append (.single (.world .stop id))) (.world .stop id)
  refine ⟨x, fun w i he => ?_, fun i w task => ?_, hl 8⟩
  · obtain ⟨m, s', hm, hs⟩ := he (max i 14) (le_max_left ..)
    rw [hx (max i 14) (le_max_right ..)] at hs
    exact absurd hs (not_step_of_idle ht hn hm)
  · rw [hl]
    intro hi
    have hm : ∀ m ∈ visit ++ [Move.world .stop], m ≠ .report w task .terminate := by simp [visit, arrive]
    rcases Nat.lt_or_ge i (visit ++ [Move.world .stop]).length with hlt | hge
    · rw [List.getD_eq_getElem _ _ hlt] at hi
      exact hm _ (List.getElem_mem hlt) hi
    · rw [List.getD_eq_default _ _ hge] at hi
      contradiction

theorem served_visit : ∃ (x : Execution (Step bare 1) (.start ())) (task : Workers.Task) (j w j' : Nat),
    x.label 8 = .world .submit ∧ 8 < j ∧ x.label j = .take w ∧ Returns x w task (j + 1) j' := by
  obtain ⟨x, hf, ht, hl⟩ := exists_visit
  have hq : ∃ task, task ∈ (x.state 9).world.tasks := by
    have hs := x.step 8
    rw [hl] at hs
    generalize x.state 9 = s' at hs ⊢
    cases hs with
    | world hw _ =>
      cases hw with
      | submit _ => exact ⟨_, List.mem_append_right _ (List.mem_singleton_self _)⟩
  obtain ⟨task, hq⟩ := hq
  obtain ⟨j, hj, w, hlj, _, j', hr⟩ := served bare_halts hf ht Nat.one_pos hq
  exact ⟨x, task, j, w, j', hl, hj, hlj, hr⟩

end Witness

end System
end YNet
