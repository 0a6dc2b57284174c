import YNet.Core.System
import YNet.Core.Theorems.Protocol
import YNet.Core.Theorems.Server.Middlewares
import YNet.Core.Theorems.Workers.Gone

open Process

namespace YNet

section Workers

open Workers

variable {s s' : World} {c w n : Nat}

theorem Workers.workers_of_step (h : Workers.Step n s a s') (ha : ¬a.IsWorker) : s'.workers = s.workers := by
  cases h <;> first | rfl | exact absurd trivial ha

theorem Workers.workers_setJob {new : Option Job} : (s.setJob w new).workers w = new :=
  Function.update_self ..

theorem Workers.Step.add_of (hl : s.loop = .accepted c events) (hf : (s.conns c).fd = fd) (ho : (s.fds fd).isSome) :
    Workers.Step n s .add { s with armed := Function.update s.armed fd true, loop := .added c events } := by
  have h : Workers.Step n s _ _ := .add hl
  rwa [hf, World.add, ho] at h

theorem Workers.Step.insert_of (hl : s.loop = .added c events) (hf : (s.conns c).fd = fd) :
    Workers.Step n s .insert { s.setEntry fd (some (some c)) with loop := .handling events } :=
  hf ▸ .insert hl

theorem Workers.Step.again_of (hl : s.loop = .handling []) (hr : s.running) :
    Workers.Step n s .again { s with loop := .waiting } := by
  have h : Workers.Step n s _ _ := .again hl
  rwa [if_pos hr] at h

theorem Workers.Step.lookup_of (hl : s.loop = .removed fd events) (hc : s.connections fd = some (some c)) :
    Workers.Step n s .lookup { s.setEntry fd (some (some c)) with loop := .found fd (some c) events } := by
  have h : Workers.Step n s _ _ := .lookup hl
  rwa [hc] at h

end Workers

namespace Workers.Stage

-- The phases of a call that belong to a stage of its task.
def Fits : Workers.Stage → Phase → Prop
  | .serving, q                => q ≠ .upgraded ∧ q ≠ .erased ∧ q ≠ .rearmed
  | .upgraded, q | .closed, q => q = .upgraded ∨ q = .terminated
  | .left, q                   => q = .erased ∨ q = .rearmed

def after (stage : Workers.Stage) : YNet.Event → Workers.Stage
  | .webSocket       => .upgraded
  | .erase | .rearm  => .left
  | _                => stage

variable {stage : Workers.Stage} {q q' : Phase} {e : YNet.Event}

-- The protocol allows an event only in a stage in which the worker can take the step.
theorem Fits.next (hf : stage.Fits q) (hn : q.next e = some q') : stage ≠ .left ∧
    (e = .webSocket → stage = .serving) ∧ (e = .rearm → stage = .serving) ∧ (stage.after e).Fits q' := by
  cases q <;> cases e <;> cases hn <;> cases stage <;> simp_all [Fits, after]

theorem of_after_left (h : stage.after e = .left) (hs : stage ≠ .left) : e = .erase ∨ e = .rearm := by
  cases e <;> simp_all [after]

end Workers.Stage

section Reports

open Workers

variable {s : World} {job job' : Job} {e : YNet.Event} {w w' c : Nat}

theorem Workers.workers_report_of_ne (h : w' ≠ w) : (s.report w job e).workers w' = s.workers w' := by
  cases e <;> first | rfl | exact Function.update_of_ne h ..

theorem Workers.workers_report (h : s.workers w = some job) :
    (s.report w job e).workers w = some { job with stage := job.stage.after e } := by
  cases e <;> first | exact h | exact Function.update_self ..

end Reports

namespace System

variable {σ : Type} {server : Server σ} {s s' : System σ} {n w w' c : Nat} {call : RequestCall σ} {job : Workers.Job}
  {moves : List Move}

-- The call of a worker keeps to the protocol, and its phase belongs to the stage of the task.
def Runs (call : RequestCall σ) (job : Workers.Job) : Prop :=
  ∃ q, after Phase.next .reading call.events = some q ∧ job.stage.Fits q ∧
    call.process.Obeys Phase.next (fun _ => True) q

-- Each worker with a task makes a call.
def Calls (s : System σ) : Prop :=
  ∀ w, Option.Rel Runs (s.calls w) (s.world.workers w)

theorem Calls.runs (h : Calls s) (hc : s.calls w = some call) (hw : s.world.workers w = some job) : Runs call job := by
  have hr := h w
  rw [hc, hw] at hr
  cases hr
  assumption

theorem Calls.exists_job (h : Calls s) (hc : s.calls w = some call) : ∃ job, s.world.workers w = some job ∧ Runs call job := by
  have hr := h w
  rw [hc] at hr
  generalize s.world.workers w = job at hr
  cases hr
  exact ⟨_, rfl, by assumption⟩

theorem Calls.update (h : Calls s) (hw : ∀ w' ≠ w, s'.world.workers w' = s.world.workers w')
    (hc : ∀ w' ≠ w, s'.calls w' = s.calls w') (hr : Option.Rel Runs (s'.calls w) (s'.world.workers w)) : Calls s' := by
  intro w'
  by_cases he : w' = w
  case pos => exact he ▸ hr
  case neg =>
    rw [hw w' he, hc w' he]
    exact h w'

theorem calls_setCall_of_ne (h : w' ≠ w) : (s.setCall w new).calls w' = s.calls w' :=
  Function.update_of_ne h ..

theorem calls_setCall : (s.setCall w new).calls w = new :=
  Function.update_self ..

theorem last_event (h : after Phase.next .reading events = some q) (hl : events.getLast? = some e) :
    ∃ q' : Phase, q'.next e = some q := by
  obtain ⟨tr, rfl⟩ := List.getLast?_eq_some_iff.mp hl
  rw [after_concat] at h
  obtain ⟨q', _, hn⟩ := Option.bind_eq_some_iff.mp h
  exact ⟨q', hn⟩

theorem Runs.upgraded (h : Runs call job) (hl : call.events.getLast? = some .webSocket) :
    job.stage = .upgraded ∨ job.stage = .closed := by
  obtain ⟨q, ha, hf, _⟩ := h
  obtain ⟨q', hn⟩ := last_event ha hl
  cases q' <;> cases hn
  cases hs : job.stage <;> simp_all [Workers.Stage.Fits]

theorem Runs.left (h : Runs call job) (hl : call.events.getLast? = some .erase ∨ call.events.getLast? = some .rearm) :
    job.stage = .left := by
  obtain ⟨q, ha, hf, _⟩ := h
  have hq : q = .erased ∨ q = .rearmed := by
    rcases hl with hl | hl
    · obtain ⟨q', hn⟩ := last_event ha hl
      cases q' <;> cases hn <;> exact .inl rfl
    · obtain ⟨q', hn⟩ := last_event ha hl
      cases q' <;> cases hn
      exact .inr rfl
  cases hs : job.stage <;> rcases hq with rfl | rfl <;> simp_all [Workers.Stage.Fits]

-- What the code does is a step of its worker.
theorem run_report (hw : s.world.workers w = some job) (hr : Runs ⟨events, .emit e t⟩ job) :
    Run (Workers.Step n) s.world (acts (.report w job.toTask e)) (s.world.report w job e) := by
  obtain ⟨q, _, hf, q', hn, _⟩ := hr
  obtain ⟨hl, hs, ha, _⟩ := hf.next hn
  cases e with
  | webSocket => exact .single (.upgrade hw (hs rfl))
  | erase     => exact .single (.erase hw hl)
  | rearm     => exact .single (.rearm hw (ha rfl))
  | _         => exact .nil

theorem run_step (hc : Calls s) (hs : Workers.Shut s.world) (h : Step server n s m s') :
    Run (Workers.Step n) s.world (acts m) s'.world := by
  cases h with
  | world hw _          => exact .single hw
  | take _ hw           => exact .single hw
  | app                 => exact .nil
  | report hcall hw     => exact run_report hw (hc.runs hcall hw)
  | close hcall hl hw ho =>
    refine .single (.close hw (((hc.runs hcall hw).upgraded hl).resolve_right fun hst => ?_))
    exact hs _ _ hw hst ho
  | finish hcall hl     =>
    obtain ⟨job, hw, hr⟩ := hc.exists_job hcall
    exact .single (.finish hw (hr.left hl))

theorem Calls.step (hc : Calls s) (h : Step server n s m s') : Calls s' := by
  cases h with
  | world hw ha       => exact fun w => Workers.workers_of_step hw ha ▸ hc w
  | take conn hw      =>
    cases hw with
    | take ht _ hn =>
      refine hc.update (fun w' hw' => Function.update_of_ne hw' ..) (fun w' => calls_setCall_of_ne) ?_
      rw [calls_setCall]
      simp only [setCall, Workers.World.setJob, Function.update_self]
      refine .some ⟨.reading, rfl, by simp [Workers.Stage.Fits], ?_⟩
      exact Server.handleRequest_obeys (.inr fun _ => trivial) (fun _ _ => trivial) conn
  | app hcall         =>
    obtain ⟨job, hw, q, hq, hf, hp⟩ := hc.exists_job hcall
    refine hc.update (fun _ _ => rfl) (fun w' => calls_setCall_of_ne) ?_
    rw [calls_setCall]
    simp only [setCall, hw]
    exact .some ⟨q, hq, hf, hp s.app⟩
  | report hcall hw   =>
    obtain ⟨q, hq, hf, q', hn, hp⟩ := hc.runs hcall hw
    refine hc.update (fun w' => Workers.workers_report_of_ne) (fun w' => calls_setCall_of_ne) ?_
    rw [calls_setCall]
    simp only [setCall, Workers.workers_report hw]
    refine .some ⟨q', ?_, (hf.next hn).2.2.2, hp⟩
    rw [after_concat, hq]
    exact hn
  | close hcall hl hw ho =>
    obtain ⟨q, hq, hf, hp⟩ := hc.runs hcall hw
    refine hc.update (fun w' hw' => Function.update_of_ne hw' ..) (fun _ _ => rfl) ?_
    simp only [hcall, Workers.World.setStage, Workers.World.setJob, Function.update_self]
    refine .some ⟨q, hq, ?_, hp⟩
    rcases Runs.upgraded ⟨q, hq, hf, hp⟩ hl with hst | hst
    · rwa [hst] at hf
    · rwa [hst] at hf
  | finish hcall hl   =>
    refine hc.update (fun w' hw' => Function.update_of_ne hw' ..) (fun w' => calls_setCall_of_ne) ?_
    rw [calls_setCall]
    simp only [setCall, Workers.World.setJob, Function.update_self]
    exact .none

-- Whatever the code does, the event loop, the queue and the workers go through steps of their own model.
theorem Calls.of_run (h : Run (Step server n) (.start a) moves s) :
    Run (Workers.Step n) .start (moves.flatMap acts) s.world ∧ Calls s := by
  refine h.history (I := fun tr s => Run (Workers.Step n) .start (tr.flatMap acts) s.world ∧ Calls s) ⟨.nil, fun _ => .none⟩ ?_
  intro tr s m s' _ hs ⟨hr, hc⟩
  have hshut := Workers.Shut.of_run hr
  rw [List.flatMap_append, List.flatMap_singleton]
  exact ⟨hr.append (run_step hc hshut hs), hc.step hs⟩

section Log

open Workers

-- Who may go on with a connection when `last` are its events since it has been rearmed.
inductive Turn (s : System σ) (c : Nat) (last : List YNet.Event) : Prop
  | waiting : (last = []) → (∀ w, ¬s.world.HasTask c (.running w)) → Turn s c last
  | running (w : Nat) : (s.world.HasTask c (.running w)) → ((s.calls w).map RequestCall.events = some last) → Turn s c last
  | gone    : (Gone s.world c) → (∃ q, after Phase.next .reading last = some q) → Turn s c last

variable {last : List YNet.Event}

theorem Turn.frame (h : Turn s c last)
    (ht : ∀ w, s'.world.HasTask c (.running w) ↔ s.world.HasTask c (.running w))
    (hc : ∀ w, s.world.HasTask c (.running w) → (s'.calls w).map RequestCall.events = (s.calls w).map RequestCall.events)
    (hg : Gone s.world c → Gone s'.world c) : Turn s' c last := by
  cases h with
  | waiting hl hn => exact .waiting hl fun w hw => hn w ((ht w).mp hw)
  | running w hw hl => exact .running w ((ht w).mpr hw) ((hc w hw).trans hl)
  | gone hgone hq => exact .gone (hg hgone) hq

-- A step of another worker does not matter.
theorem hasTask_running_iff {world : World} (hw : ∀ w' ≠ w, world.workers w' = s.world.workers w')
    (hc : ∀ job ∈ s.world.workers w, job.conn ≠ c) (hc' : ∀ job ∈ world.workers w, job.conn ≠ c) (w' : Nat) :
    world.HasTask c (.running w') ↔ s.world.HasTask c (.running w') := by
  by_cases he : w' = w
  case pos =>
    subst he
    exact iff_of_false (fun ⟨job, hj, _, h⟩ => hc' job hj h) fun ⟨job, hj, _, h⟩ => hc job hj h
  case neg => simp only [World.HasTask, hw w' he]

theorem ne_of_hasTask (h : s.world.HasTask c (.running w')) (hc : ∀ job ∈ s.world.workers w, job.conn ≠ c) : w' ≠ w := by
  rintro rfl
  obtain ⟨job, hj, _, h⟩ := h
  exact hc job hj h

theorem log_concat : log c (moves ++ [m]) = log c moves ++ log c [m] :=
  List.filterMap_append

-- The events on a connection are those of calls that have rearmed it, and of one more.
def Orderly (s : System σ) (c : Nat) (events : List YNet.Event) : Prop :=
  ∃ (done : List (List YNet.Event)) (last : _), events = done.flatten ++ last ∧ (∀ tr ∈ done, after Phase.next .reading tr = some .rearmed) ∧ Turn s c last

theorem Orderly.take (ho : Orderly s c events) (hi : Inv s.world) (call : RequestCall σ) (hcall : call.events = [])
    (h : Workers.Step n s.world (.take w) t) : Orderly (setCall { s with world := t } w (some call)) c events := by
  obtain ⟨done, last, he, hd, ht⟩ := ho
  refine ⟨done, last, he, hd, ?_⟩
  have hgone (hg : Gone s.world c) : Gone t c := hg.step h
  cases h with
  | @take task tasks _ _ hq _ hw =>
    by_cases hc : task.conn = c
    case pos =>
      have hqueue : s.world.HasTask c (.queued 0) := ⟨task, by rw [hq]; rfl, hc⟩
      cases ht with
      | waiting hl _   =>
        refine .running w ⟨_, Function.update_self .., by simp, hc⟩ ?_
        rw [calls_setCall, Option.map_some, hcall, hl]
      | running _ hr _ => exact absurd (hi.exclusive.unique c _ _ hqueue hr) (by simp)
      | gone hg _      => exact absurd hqueue (hg.idle _)
    case neg =>
      have hold : ∀ job ∈ s.world.workers w, job.conn ≠ c := by simp [hw]
      refine ht.frame (hasTask_running_iff (w := w) (fun w' hw' => Function.update_of_ne hw' ..) hold ?_)
        (fun w' hr => congrArg _ (calls_setCall_of_ne (ne_of_hasTask hr hold))) hgone
      simpa [setCall, World.setJob] using hc

theorem Orderly.report (ho : Orderly s c events) (hi : Inv s.world) (hr : Runs ⟨reported, .emit e t⟩ job)
    (hcall : s.calls w = some ⟨reported, .emit e t⟩) (hw : s.world.workers w = some job) :
    Orderly (setCall { s with world := s.world.report w job e } w (some ⟨reported ++ [e], t⟩)) c
      (events ++ log c [.report w job.toTask e]) := by
  obtain ⟨done, last, he, hd, ht⟩ := ho
  obtain ⟨q, hq, hf, q', hn, _⟩ := hr
  have hl : job.stage ≠ .left := (hf.next hn).1
  have hwork : (s.world.report w job e).workers w = some { job with stage := job.stage.after e } := workers_report hw
  by_cases hc : job.conn = c
  case neg =>
    have hold : ∀ job' ∈ s.world.workers w, job'.conn ≠ c := by simpa [hw] using hc
    have hlog : log c [.report w job.toTask e] = [] := by simp [log, hc]
    rw [hlog, List.append_nil]
    refine ⟨done, last, he, hd, ht.frame (hasTask_running_iff (w := w) (fun w' => workers_report_of_ne) hold ?_)
      (fun w' hr => congrArg _ (calls_setCall_of_ne (ne_of_hasTask hr hold)))
      fun hg => hg.run (run_report (n := 0) hw ⟨q, hq, hf, q', hn, by assumption⟩)⟩
    simpa [setCall, hwork] using hc
  case pos =>
    subst hc
    have htask : s.world.HasTask job.conn (.running w) := hasTask_running hw hl
    have hlast : last = reported := by
      cases ht with
      | waiting _ hn    => exact absurd htask (hn w)
      | gone hg _       => exact absurd htask (hg.idle _)
      | running w' hr h =>
        cases hi.exclusive.worker_eq hr htask
        rw [hcall] at h
        exact (Option.some.inj h).symm
    have hlog : log job.conn [.report w job.toTask e] = [e] := by simp [log]
    have hq' : after Phase.next .reading (reported ++ [e]) = some q' := by
      rw [after_concat, hq]
      exact hn
    rw [hlog, he, hlast, List.append_assoc]
    by_cases hleft : job.stage.after e = .left
    case neg =>
      refine ⟨done, reported ++ [e], rfl, hd, .running w ⟨_, hwork, hleft, rfl⟩ ?_⟩
      rw [calls_setCall]
      rfl
    case pos =>
      rcases Stage.of_after_left hleft hl with rfl | rfl
      case inl => exact ⟨done, reported ++ [.erase], rfl, hd, .gone (.of_erase hi hw hl) ⟨q', hq'⟩⟩
      case inr =>
        have hrearmed : q' = .rearmed := by cases q <;> cases hn; rfl
        refine ⟨done ++ [reported ++ [.rearm]], [], by simp, ?_, .waiting rfl fun w' hw' => ?_⟩
        · rw [List.forall_mem_append, List.forall_mem_singleton]
          exact ⟨hd, hrearmed ▸ hq'⟩
        · exact not_hasTask_of_left (s := s.world.add job.fd) hi.exclusive.unique hw hl hw' rfl

theorem log_other (h : ∀ w task e, m ≠ .report w task e) : log c (moves ++ [m]) = log c moves := by
  rw [log_concat, List.append_right_eq_self]
  cases m <;> first | rfl | exact absurd rfl (h _ _ _)

theorem map_events_setCall (h : (s.calls w).map RequestCall.events = new.map RequestCall.events) (w' : Nat) :
    ((s.setCall w new).calls w').map RequestCall.events = (s.calls w').map RequestCall.events := by
  by_cases hw : w' = w
  case pos => rw [hw, calls_setCall, h]
  case neg => rw [calls_setCall_of_ne hw]

theorem hasTask_setStage_iff {t : World} {stage : Stage} (hw : t.workers w = some job) (hs : job.stage ≠ .left)
    (hs' : stage ≠ .left) (w' : Nat) :
    (t.setStage w job stage).HasTask c (.running w') ↔ t.HasTask c (.running w') := by
  refine ⟨hasTask_of_setStage hw hs, fun ⟨job', hw', hl, hc⟩ => ?_⟩
  by_cases he : w' = w
  case pos =>
    subst he
    cases hw.symm.trans hw'
    exact ⟨_, Function.update_self .., hs', hc⟩
  case neg => exact ⟨job', (Function.update_of_ne he ..).trans hw', hl, hc⟩

theorem ne_of_left (hw : s.world.workers w = some job) (hl : job.stage = .left) (h : s.world.HasTask c (.running w')) :
    w' ≠ w := by
  rintro rfl
  obtain ⟨job', hw', hs, _⟩ := h
  cases hw.symm.trans hw'
  exact hs hl

theorem Orderly.step (ho : Orderly s c (log c moves)) (hi : Inv s.world) (hc : Calls s)
    (hr : Run (Workers.Step n) s.world (acts m) s'.world) (h : Step server n s m s') :
    Orderly s' c (log c (moves ++ [m])) := by
  cases h with
  | report hcall hw         =>
    rw [log_concat]
    exact ho.report hi (hc.runs hcall hw) hcall hw
  | take conn hw            =>
    rw [log_other (by simp)]
    exact ho.take hi _ rfl hw
  | world hw ha             =>
    obtain ⟨done, last, he, hd, ht⟩ := ho
    have hsame := workers_of_step hw ha
    rw [log_other (by simp)]
    refine ⟨done, last, he, hd, ht.frame (fun w => ?_) (fun _ _ => rfl) (·.run hr)⟩
    simp only [World.HasTask, hsame]
  | app hcall               =>
    obtain ⟨done, last, he, hd, ht⟩ := ho
    rw [log_other (by simp)]
    exact ⟨done, last, he, hd, ht.frame (fun _ => .rfl) (fun w' _ => map_events_setCall (by rw [hcall]; rfl) w') id⟩
  | close hcall hl hw hopen =>
    obtain ⟨done, last, he, hd, ht⟩ := ho
    rw [log_other (by simp)]
    refine ⟨done, last, he, hd, ht.frame (hasTask_setStage_iff (t := s.world.close _) hw ?_ (by simp))
      (fun _ _ => rfl) (·.run hr)⟩
    rcases (hc.runs hcall hw).upgraded hl with hst | hst <;> simp [hst]
  | finish hcall hl         =>
    obtain ⟨done, last, he, hd, ht⟩ := ho
    obtain ⟨job, hw, hruns⟩ := hc.exists_job hcall
    have hne {w'} (h : s.world.HasTask c (.running w')) := ne_of_left hw (hruns.left hl) h
    rw [log_other (by simp)]
    refine ⟨done, last, he, hd, ht.frame (fun w' => ⟨hasTask_of_finish, fun h => ?_⟩)
      (fun w' h => congrArg _ (calls_setCall_of_ne (hne h))) (·.run hr)⟩
    obtain ⟨job', hw', h'⟩ := h
    exact ⟨job', (Function.update_of_ne (hne ⟨job', hw', h'⟩) ..).trans hw', h'⟩

theorem Orderly.of_run (h : Run (Step server n) (.start a) moves s) (c : Nat) : Orderly s c (log c moves) := by
  refine h.history (I := fun tr s => Orderly s c (log c tr)) ⟨[], [], rfl, by simp, .waiting rfl ?_⟩ ?_
  · rintro w ⟨job, hw, _⟩
    cases hw
  · intro tr s m s' hr hs ho
    obtain ⟨hw, hc⟩ := Calls.of_run hr
    have hi := Inv.of_run hw
    exact ho.step hi hc (run_step hc (Shut.of_run hw) hs) hs

-- Whatever the threads do, the events on a connection are those of complete calls of `handleRequest`, each of
-- which has rearmed it, and of one more, which keeps to the protocol.
theorem connection_protocol (h : Run (Step server n) (.start a) moves s) (c : Nat) : ∃ done last,
    log c moves = List.flatten done ++ last ∧ (∀ tr ∈ done, after Phase.next .reading tr = some .rearmed) ∧
    ∃ q, after Phase.next .reading last = some q := by
  obtain ⟨done, last, he, hd, ht⟩ := Orderly.of_run h c
  refine ⟨done, last, he, hd, ?_⟩
  cases ht with
  | waiting hl _                => exact ⟨.reading, by rw [hl]; rfl⟩
  | gone _ hq                   => exact hq
  | running w hr hl             =>
    obtain ⟨call, hcall, rfl⟩ := Option.map_eq_some_iff.mp hl
    obtain ⟨_, _, q, hq, _⟩ := (Calls.of_run h).2.exists_job hcall
    exact ⟨q, hq⟩

end Log

-- The code takes only the steps that the workers may take: the events, the queue and the tasks of the whole server
-- go through a run of their own model. Exactly the workers with a task make a call, and the stage of each task is
-- the phase of its call.
theorem refines_workers (h : Run (Step server n) (.start a) moves s) :
    Run (Workers.Step n) .start (moves.flatMap acts) s.world ∧
    (∀ w, (s.calls w).isSome ↔ (s.world.workers w).isSome) ∧
    ∀ w call job, s.calls w = some call → s.world.workers w = some job →
      ∃ q, after Phase.next .reading call.events = some q ∧ job.stage.Fits q := by
  obtain ⟨hr, hc⟩ := Calls.of_run h
  refine ⟨hr, fun w => ?_, fun w call job hcall hw => ?_⟩
  · have hrel := hc w
    generalize s.calls w = call, s.world.workers w = job at hrel
    cases hrel <;> simp
  · obtain ⟨q, hq, hf, _⟩ := hc.runs hcall hw
    exact ⟨q, hq, hf⟩

section Witness

def bare : Server Unit where
  fileSystem := fun _ => ⟨fun _ => none, fun _ => none⟩
  digest     := id

-- A client connects, and its connection is handed to the only worker.
def arrive (fd : Nat) : List Move :=
  [.world (.wait [.listener]), .world (.accept fd), .world .add, .world .insert, .world .again, .world (.wait [.client fd]),
    .world .remove, .world .lookup, .world .submit, .world .again, .take 0]

-- A client connects and sends nothing, so that its connection is erased.
def visit : List Move :=
  arrive 5 ++ [.report 0 ⟨5, 0⟩ .erase, .finish 0]

-- The event loop and the worker wait for the next client.
structure Free (world : Workers.World) : Prop where
  loop      : world.loop = .waiting
  running   : world.running = true
  listening : world.listening = true
  tasks     : world.tasks = []
  worker    : world.workers 0 = none

theorem free_start : Free .start :=
  ⟨rfl, rfl, rfl, rfl, rfl⟩

-- The state behind an `arrive`.
def arrived (world : Workers.World) (fd : Nat) : Workers.World :=
  { world with
    conns       := Function.update world.conns world.count ⟨fd, true⟩
    count       := world.count + 1
    fds         := Function.update world.fds fd (some world.count)
    armed       := Function.update (Function.update world.armed fd true) fd false
    connections :=
      Function.update (Function.update world.connections fd (some (some world.count))) fd (some (some world.count))
    workers     := Function.update world.workers 0 (some ⟨⟨fd, world.count⟩, .serving⟩) }

theorem workers_arrived {world : Workers.World} :
    (arrived world fd).workers 0 = some ⟨⟨fd, world.count⟩, .serving⟩ := by
  simp [arrived]

theorem mem_client {P : Nat → Prop} (h : P fd) : ∀ fd', Workers.Event.client fd' ∈ [Workers.Event.client fd] → P fd' := by
  intro fd' hm
  cases List.mem_singleton.mp hm
  exact h

theorem run_arrive {world : Workers.World} (fd : Nat) (hw : Free world) (hf : world.fds fd = none) (app : σ)
    (calls : Nat → Option (RequestCall σ)) {conn : Connection} (hp : server.handleRequest conn = p) :
    Run (Step server 1) ⟨world, app, calls⟩ (arrive fd) (setCall ⟨arrived world fd, app, calls⟩ 0 (some ⟨[], p⟩)) := by
  subst hp
  obtain ⟨conns, count, fds, armed, connections, loop, tasks, workers, running, listening⟩ := world
  obtain ⟨rfl, rfl, rfl, rfl, hidle⟩ := hw
  have hfd : (Function.update conns count (⟨fd, true⟩ : Workers.Conn) count).fd = fd := by simp
  have hopen : (Function.update fds fd (some count) fd).isSome = true := by simp
  have hentry : Function.update connections fd (some (some count)) fd = some (some count) := by simp
  have harmed : Function.update armed fd true fd = true := by simp
  exact .cons (.world (.wait rfl (List.nodup_singleton _) (by simp)) id) <| .cons (.world (.accept rfl rfl hf) id) <|
    .cons (.world (.add_of rfl hfd hopen) id) <| .cons (.world (.insert_of rfl hfd) id) <|
    .cons (.world (.again_of rfl rfl) id) <|
    .cons (.world (.wait rfl (List.nodup_singleton _) (mem_client harmed)) id) <| .cons (.world (.remove rfl) id) <|
    .cons (.world (.lookup_of rfl hentry) id) <| .cons (.world (.submit rfl) id) <|
    .cons (.world (.again_of rfl rfl) id) <| .single (.take conn (.take rfl Nat.one_pos hidle))

theorem run_erase (hw : s.world.workers w = some job) :
    Run (Step server n) (s.setCall w (some ⟨[], .emit .erase .stop⟩)) [.report w job.toTask .erase, .finish w]
      (setCall { s with world := ((s.world.setEntry job.fd none).setStage w job .left).setJob w none } w none) := by
  have hl : [YNet.Event.erase].getLast? = some .erase := rfl
  have h : Run (Step server n) (s.setCall w (some ⟨[], .emit .erase .stop⟩)) [.report w job.toTask .erase, .finish w] _ :=
    .cons (.report calls_setCall hw) <| .single (.finish calls_setCall (.inl hl))
  simpa only [setCall, Workers.World.report, Function.update_idem] using h

theorem run_answer (hw : s.world.workers w = some job) :
    Run (Step server n) (s.setCall w (some ⟨[], .emit (.parse raw) (.emit (.send res) (.emit .rearm .stop))⟩))
      [.report w job.toTask (.parse raw), .report w job.toTask (.send res), .report w job.toTask .rearm, .finish w]
      (setCall { s with world := ((s.world.add job.fd).setStage w job .left).setJob w none } w none) := by
  have hl : [YNet.Event.parse raw, .send res, .rearm].getLast? = some .rearm := rfl
  have h : Run (Step server n) (s.setCall w (some ⟨[], .emit (.parse raw) (.emit (.send res) (.emit .rearm .stop))⟩))
      [.report w job.toTask (.parse raw), .report w job.toTask (.send res), .report w job.toTask .rearm, .finish w] _ :=
    .cons (.report calls_setCall hw) <| .cons (.report calls_setCall hw) <| .cons (.report calls_setCall hw) <|
      .single (.finish calls_setCall (.inr hl))
  simpa only [setCall, Workers.World.report, Function.update_idem] using h

theorem handleRequest_unread : server.handleRequest ⟨[], some false, []⟩ = .emit .erase .stop :=
  rfl

theorem run_visit : ∃ s, Run (Step bare 1) (.start ()) visit s ∧ s.world.tasks = [] ∧ ∀ w, s.calls w = none := by
  have ha : Run (Step bare 1) _ _ _ := run_arrive 5 free_start rfl () (fun _ => none) handleRequest_unread
  have he := ha.append (run_erase workers_arrived)
  refine ⟨_, he, rfl, fun w => ?_⟩
  by_cases hw : w = 0
  case pos => exact hw ▸ calls_setCall
  case neg => exact calls_setCall_of_ne hw

theorem refines_workers_visit : ∃ s, Run (Workers.Step 1) .start (visit.flatMap acts) s := by
  obtain ⟨s, hr, _⟩ := run_visit
  exact ⟨s.world, (refines_workers hr).1⟩

-- A server that answers with its default page for an unknown path.
def routeless : Server Unit :=
  { bare with router := some ⟨[], List.nodup_nil⟩ }

theorem getRoot_ne_nil : ("GET / HTTP/1.1\r\n\r\n" : Bytes) ≠ [] := by
  decide

theorem getRoot_le : ("GET / HTTP/1.1\r\n\r\n" : Bytes).length ≤ 4096 := by
  decide

def getRoot : Chunk :=
  ⟨"GET / HTTP/1.1\r\n\r\n", getRoot_ne_nil, getRoot_le⟩

theorem routeless_accepts : ∃ req, routeless.Accepts ⟨[], none, [some getRoot]⟩ getRoot.bytes req ∧
    ¬WebSocket.isUpgrade req ∧ req.getHeader "Connection" ≠ some ("close" : Bytes) := by
  have he : (Request.parse getRoot.bytes {}).toOption.map (fun req => decide (req.parseError = false ∧
      ¬WebSocket.isUpgrade req ∧ req.getHeader "Connection" ≠ some ("close" : Bytes))) = some true := by
    decide +kernel
  obtain ⟨req, h, hr⟩ := Exn.exists_of_map_toOption he
  obtain ⟨hp, hu, hc⟩ := of_decide_eq_true hr
  have hrecv : (Server.receive {} [some getRoot]).1 = .raw getRoot.bytes := by decide +kernel
  exact ⟨req, ⟨by simp, hrecv, by decide, h, hp⟩, hu, hc⟩

theorem handleParsed_routeless {req : Request} (hp : req.parseError = false) (hu : ¬WebSocket.isUpgrade req)
    (hc : req.getHeader "Connection" ≠ some ("close" : Bytes)) :
    routeless.handleParsed req = .emit (.send (.error 404)) (.emit .rearm .stop) := by
  rw [Server.handleParsed_of_router hp hu rfl]
  exact congrArg (emit _) (if_neg hc)

theorem handleRequest_routeless : routeless.handleRequest ⟨[], none, [some getRoot]⟩ =
    .emit (.parse getRoot.bytes) (.emit (.send (.error 404)) (.emit .rearm .stop)) := by
  obtain ⟨req, ha, hu, hc⟩ := routeless_accepts
  rw [Server.handleRequest_of_accepts ha]
  exact congrArg (emit _) (handleParsed_routeless ha.2.2.2.2 hu hc)

-- The first client gets an answer and keeps its connection. Another one connects and sends nothing.
def twoVisits : List Move :=
  arrive 5 ++ [.report 0 ⟨5, 0⟩ (.parse getRoot.bytes), .report 0 ⟨5, 0⟩ (.send (.error 404)), .report 0 ⟨5, 0⟩ .rearm,
    .finish 0] ++ (arrive 6 ++ [.report 0 ⟨6, 1⟩ .erase, .finish 0])

theorem run_twoVisits : ∃ s, Run (Step routeless 1) (.start ()) twoVisits s := by
  have ha : Run (Step routeless 1) _ _ _ := run_arrive 5 free_start rfl () (fun _ => none) handleRequest_routeless
  have hr := ha.append (run_answer workers_arrived)
  have ha' := hr.append (run_arrive 6 ⟨rfl, rfl, rfl, rfl, Workers.workers_setJob⟩ rfl () _ handleRequest_unread)
  have he := ha'.append (run_erase workers_arrived)
  exact ⟨_, he⟩

theorem connection_protocol_visit : log 0 twoVisits = [.parse getRoot.bytes, .send (.error 404), .rearm] ∧
    log 1 twoVisits = [.erase] ∧ ∀ c, ∃ done last, log c twoVisits = List.flatten done ++ last ∧
      (∀ tr ∈ done, after Phase.next .reading tr = some .rearmed) ∧ ∃ q, after Phase.next .reading last = some q := by
  obtain ⟨s, hr⟩ := run_twoVisits
  exact ⟨rfl, rfl, connection_protocol hr⟩

end Witness

end System

end YNet
