import YNet.Core.Workers

namespace YNet.Workers

variable {s s' : World} {n c c' fd fd' w w' : Nat} {tr : List Act}

-- Where a task is that has not been left yet.
inductive Place
  | queued (i : Nat)
  | running (w : Nat)

def World.HasTask (s : World) (c : Nat) : Place → Prop
  | .queued i  => ∃ task, s.tasks[i]? = some task ∧ task.conn = c
  | .running w => ∃ job, s.workers w = some job ∧ job.stage ≠ .left ∧ job.conn = c

def World.Idle (s : World) (c : Nat) : Prop :=
  ∀ p, ¬s.HasTask c p

def Stage.Open (stage : Stage) : Prop :=
  stage = .serving ∨ stage = .upgraded

-- The connection object has been closed by the handler that still runs for it.
def World.Closing (s : World) (c : Nat) : Prop :=
  ∃ w job, s.workers w = some job ∧ job.stage = .closed ∧ job.conn = c

-- The kernel's view of the connection objects.
structure Kernel (s : World) : Prop where
  current : ∀ c < s.count, (s.conns c).isOpen → s.fds (s.conns c).fd = some c
  owner   : ∀ fd c, s.fds fd = some c → c < s.count ∧ (s.conns c).isOpen ∧ (s.conns c).fd = fd
  armed   : ∀ fd, s.armed fd → (s.fds fd).isSome

-- The references of the server to the connection objects.
structure Refs (s : World) : Prop where
  entry : ∀ fd c, s.connections fd = some (some c) →
    c < s.count ∧ (s.conns c).fd = fd ∧ ((s.conns c).isOpen ∨ s.Closing c)
  task  : ∀ task ∈ s.tasks, task.conn < s.count ∧ (s.conns task.conn).fd = task.fd ∧ (s.conns task.conn).isOpen
  job   : ∀ w job, s.workers w = some job →
    job.conn < s.count ∧ (s.conns job.conn).fd = job.fd ∧ (job.stage.Open → (s.conns job.conn).isOpen)

structure Exclusive (s : World) : Prop where
  unique   : ∀ c p q, s.HasTask c p → s.HasTask c q → p = q
  disarmed : ∀ c p, s.HasTask c p → (s.conns c).isOpen → ¬s.armed (s.conns c).fd

def clients (events : List Event) : List Nat :=
  events.filterMap fun
    | .client fd => some fd
    | .listener  => none

-- The table does not mix up the connection that has a descriptor with one that had it before.
def World.Current (s : World) : Prop :=
  ∀ fd c c', s.fds fd = some c' → s.connections fd = some (some c) → c = c'

-- The connections that are found under these descriptors can be given a task.
def World.Pending (s : World) (fds : List Nat) : Prop :=
  fds.Nodup ∧ ∀ fd ∈ fds, ∀ c, s.connections fd = some (some c) → s.Idle c

-- A connection that has been accepted but is not in the table yet.
structure World.Fresh (s : World) (c : Nat) : Prop where
  lt      : c < s.count
  isOpen  : (s.conns c).isOpen
  idle    : s.Idle c
  absent  : ∀ fd, s.connections fd ≠ some (some c)
  current : ∀ fd c₁ c₂, fd ≠ (s.conns c).fd → s.fds fd = some c₂ → s.connections fd = some (some c₁) → c₁ = c₂

def World.LoopInv (s : World) : Loop → Prop
  | .waiting | .stopped     => s.Current
  | .handling events        => s.Current ∧ s.Pending (clients events)
  | .accepted c events      => s.Fresh c ∧ s.Pending (clients events)
  | .added c events         => s.Fresh c ∧ s.Pending (clients events)
  | .removed fd events      => s.Current ∧ s.Pending (fd :: clients events) ∧
      ∀ c, s.connections fd = some (some c) → (s.conns c).isOpen → ¬s.armed fd
  | .found _ none events    => s.Current ∧ s.Pending (clients events)
  | .found fd (some c) events => s.Current ∧ s.Pending (clients events) ∧ fd ∉ clients events ∧
      c < s.count ∧ (s.conns c).fd = fd ∧ (s.conns c).isOpen ∧ s.Idle c ∧ ¬s.armed fd

structure Inv (s : World) : Prop where
  kernel    : Kernel s
  refs      : Refs s
  exclusive : Exclusive s
  loop      : s.LoopInv s.loop

theorem Kernel.conn_eq (h : Kernel s) (hc : c < s.count) (ho : (s.conns c).isOpen) (hc' : c' < s.count)
    (ho' : (s.conns c').isOpen) (hf : (s.conns c).fd = (s.conns c').fd) : c = c' := by
  have := h.current c hc ho
  rw [hf, h.current c' hc' ho'] at this
  exact (Option.some.inj this).symm

theorem Refs.lt_of_hasTask (h : Refs s) (ht : s.HasTask c p) : c < s.count := by
  cases p with
  | queued i =>
    have ⟨task, hi, hc⟩ := ht
    exact hc ▸ (h.task task (List.mem_of_getElem? hi)).1
  | running w =>
    have ⟨job, hw, _, hc⟩ := ht
    exact hc ▸ (h.job w job hw).1

theorem World.Closing.not_idle (h : s.Closing c) : ¬s.Idle c := by
  have ⟨w, job, hw, hs, hc⟩ := h
  exact fun hi => hi (.running w) ⟨job, hw, by simp [hs], hc⟩

section Kernel

theorem Kernel.add (h : Kernel s) (fd : Nat) : Kernel (s.add fd) where
  current     := h.current
  owner       := h.owner
  armed fd' ha := by
    by_cases hf : fd' = fd
    case pos => simpa [World.add, hf] using ha
    case neg => exact h.armed fd' (by simpa [World.add, Function.update_of_ne hf] using ha)

theorem Kernel.remove (h : Kernel s) (fd : Nat) : Kernel (s.remove fd) where
  current     := h.current
  owner       := h.owner
  armed fd' ha := by
    by_cases hf : fd' = fd
    case pos => simp [World.remove, hf] at ha
    case neg => exact h.armed fd' (by simpa [World.remove, Function.update_of_ne hf] using ha)

theorem isOpen_of_close (h : ((s.close c).conns c').isOpen) : c' ≠ c ∧ (s.conns c').isOpen := by
  by_cases hc : c' = c
  case pos => simp [World.close, hc] at h
  case neg => exact ⟨hc, by simpa [World.close, Function.update_of_ne hc] using h⟩

theorem fd_close (s : World) (c c' : Nat) : ((s.close c).conns c').fd = (s.conns c').fd := by
  by_cases hc : c' = c
  case pos => simp [World.close, hc]
  case neg => simp [World.close, Function.update_of_ne hc]

theorem isOpen_close (h : (s.conns c').isOpen) (hc : c' ≠ c) : ((s.close c).conns c').isOpen := by
  simpa [World.close, Function.update_of_ne hc] using h

theorem fds_of_close (h : (s.close c).fds fd = some c') : fd ≠ (s.conns c).fd ∧ s.fds fd = some c' := by
  by_cases hf : fd = (s.conns c).fd
  case pos => simp [World.close, hf] at h
  case neg => exact ⟨hf, by simpa [World.close, Function.update_of_ne hf] using h⟩

theorem armed_of_close (h : (s.close c).armed fd) : fd ≠ (s.conns c).fd ∧ s.armed fd := by
  by_cases hf : fd = (s.conns c).fd
  case pos => simp [World.close, hf] at h
  case neg => exact ⟨hf, by simpa [World.close, Function.update_of_ne hf] using h⟩

theorem Kernel.close (h : Kernel s) (hc : c < s.count) (ho : (s.conns c).isOpen) : Kernel (s.close c) where
  current c' hc' ho' := by
    have ⟨hne, ho'⟩ := isOpen_of_close ho'
    have hf : (s.conns c').fd ≠ (s.conns c).fd := fun hf => hne (h.conn_eq hc' ho' hc ho hf)
    rw [fd_close]
    simpa [World.close, Function.update_of_ne hf] using h.current c' hc' ho'
  owner fd c' hf := by
    have ⟨hne, hf⟩ := fds_of_close hf
    have ⟨hlt, ho', hfd⟩ := h.owner fd c' hf
    have hc : c' ≠ c := by
      rintro rfl
      exact hne hfd.symm
    exact ⟨hlt, isOpen_close ho' hc, (fd_close s c c').trans hfd⟩
  armed fd ha := by
    have ⟨hne, ha⟩ := armed_of_close ha
    simpa [World.close, Function.update_of_ne hne] using h.armed fd ha

end Kernel

section Tasks

variable {job job' : Job} {stage : Stage}

theorem workers_of_setJob (h : (s.setJob w new).workers w' = some job) :
    w' = w ∧ new = some job ∨ w' ≠ w ∧ s.workers w' = some job := by
  by_cases hw : w' = w
  case pos => exact .inl ⟨hw, by simpa [World.setJob, hw] using h⟩
  case neg => exact .inr ⟨hw, (Function.update_of_ne hw ..).symm.trans h⟩

theorem workers_of_setStage (h : (s.setStage w job stage).workers w' = some job') :
    w' = w ∧ job' = { job with stage } ∨ w' ≠ w ∧ s.workers w' = some job' :=
  (workers_of_setJob h).imp_left fun ⟨hw, hj⟩ => ⟨hw, (Option.some.inj hj).symm⟩

theorem hasTask_running (hw : s.workers w = some job) (hs : job.stage ≠ .left) : s.HasTask job.conn (.running w) :=
  ⟨job, hw, hs, rfl⟩

theorem Exclusive.worker_eq (h : Exclusive s) (hp : s.HasTask c (.running w)) (hq : s.HasTask c (.running w')) :
    w = w' :=
  Place.running.inj (h.unique c _ _ hp hq)

-- Another stage of a task that has not been left yet.
theorem hasTask_of_setStage (hw : s.workers w = some job) (hs : job.stage ≠ .left)
    (h : (s.setStage w job stage).HasTask c p) : s.HasTask c p := by
  cases p with
  | queued i   => exact h
  | running w' =>
    have ⟨job', hw', hs', hc⟩ := h
    rcases workers_of_setStage hw' with ⟨rfl, rfl⟩ | ⟨_, hw'⟩
    · exact ⟨job, hw, hs, hc⟩
    · exact ⟨job', hw', hs', hc⟩

theorem idle_setStage (hw : s.workers w = some job) (hs : job.stage ≠ .left) (h : s.Idle c) :
    (s.setStage w job stage).Idle c :=
  fun p hp => h p (hasTask_of_setStage hw hs hp)

-- Its task does not exist any more when a worker has left it.
theorem not_hasTask_of_left (h : ∀ c p q, s.HasTask c p → s.HasTask c q → p = q) (hw : s.workers w = some job)
    (hs : job.stage ≠ .left) (ht : (s.setStage w job .left).HasTask c p) : c ≠ job.conn := by
  rintro rfl
  have hp := h _ _ _ (hasTask_of_setStage hw hs ht) (hasTask_running hw hs)
  subst hp
  have ⟨job', hw', hs', _⟩ := ht
  rcases workers_of_setStage hw' with ⟨_, rfl⟩ | ⟨hne, _⟩
  · exact hs' rfl
  · exact hne rfl

theorem hasTask_of_finish (h : (s.setJob w none).HasTask c p) : s.HasTask c p := by
  cases p with
  | queued i   => exact h
  | running w' =>
    have ⟨job', hw', hs', hc⟩ := h
    rcases workers_of_setJob hw' with ⟨_, hn⟩ | ⟨_, hw'⟩
    · contradiction
    · exact ⟨job', hw', hs', hc⟩

-- The places of the tasks before a worker takes the first one out of the queue.
def untake (w : Nat) : Place → Place
  | .queued i   => .queued (i + 1)
  | .running w' => if w' = w then .queued 0 else .running w'

theorem untake_injective (w : Nat) : Function.Injective (untake w) := by
  intro p q h
  cases p <;> cases q <;> simp only [untake] at h <;> grind

theorem hasTask_of_take (ht : s.tasks = task :: tasks)
    (h : World.HasTask { s.setJob w (some { task with stage := .serving }) with tasks } c p) :
    s.HasTask c (untake w p) := by
  cases p with
  | queued i   =>
    have ⟨task', hi, hc⟩ := h
    exact ⟨task', by rw [ht]; exact hi, hc⟩
  | running w' =>
    have ⟨job', hw', hs', hc⟩ := h
    rcases workers_of_setJob hw' with ⟨hww, hj⟩ | ⟨hww, hw'⟩
    · cases hj
      simp only [untake, hww, if_true]
      exact ⟨task, by rw [ht]; rfl, hc⟩
    · simp only [untake, hww, if_false]
      exact ⟨job', hw', hs', hc⟩

theorem hasTask_of_submit (h : World.HasTask { s with tasks := s.tasks ++ [{ fd, conn := c' }], loop } c p) :
    s.HasTask c p ∨ p = .queued s.tasks.length ∧ c = c' := by
  cases p with
  | running w' => exact .inl h
  | queued i   =>
    have ⟨task', hi, hc⟩ := h
    simp only [List.getElem?_append] at hi
    split at hi
    case isTrue       => exact .inl ⟨task', hi, hc⟩
    case isFalse hlen =>
      have ⟨hlt, hi⟩ := List.getElem?_eq_some_iff.mp hi
      have hlast : i = s.tasks.length := by
        have : i - s.tasks.length < 1 := hlt
        omega
      simp only [List.getElem_singleton] at hi
      subst hi
      exact .inr ⟨congrArg _ hlast, hc.symm⟩

end Tasks

-- What a step outside of the event loop can do.
structure Aside (s s' : World) : Prop where
  loop   : s'.loop = s.loop
  count  : s'.count = s.count
  fd     : ∀ c, (s'.conns c).fd = (s.conns c).fd
  opened : ∀ c, (s'.conns c).isOpen → (s.conns c).isOpen
  isOpen : ∀ c, (s.conns c).isOpen → (s'.conns c).isOpen ∨ ¬s.Idle c ∨ ¬s.Held c
  fds    : ∀ fd c, s'.fds fd = some c → s.fds fd = some c
  armed  : ∀ fd, s'.armed fd → s.armed fd ∨ ∃ c, s.fds fd = some c ∧ ¬s.Idle c
  entry  : ∀ fd c, s'.connections fd = some (some c) → s.connections fd = some (some c)
  idle   : ∀ c, s.Idle c → s'.Idle c

namespace Aside

variable {events : List Event} {l : List Nat}

theorem pending (h : Aside s s') (hp : s.Pending l) : s'.Pending l :=
  ⟨hp.1, fun fd hm c hc => h.idle c (hp.2 fd hm c (h.entry fd c hc))⟩

theorem current (h : Aside s s') (hc : s.Current) : s'.Current :=
  fun fd c c' hf he => hc fd c c' (h.fds fd c' hf) (h.entry fd c he)

theorem fresh (h : Aside s s') (hf : s.Fresh c) (hh : s.Held c) : s'.Fresh c where
  lt           := h.count ▸ hf.lt
  isOpen       := (h.isOpen c hf.isOpen).resolve_right fun hn => hn.elim (· hf.idle) (· hh)
  idle         := h.idle c hf.idle
  absent fd hc := hf.absent fd (h.entry fd c hc)
  current fd c₁ c₂ hne hfd he := hf.current fd c₁ c₂ (h.fd c ▸ hne) (h.fds fd c₂ hfd) (h.entry fd c₁ he)

theorem loopInv (h : Aside s s') (hk : Kernel s) (hi : s.LoopInv s.loop) : s'.LoopInv s'.loop := by
  have held c (hl : s.loop.conn = some c) : s.Held c := .inr (.inr (.inr hl))
  rw [h.loop]
  cases hl : s.loop with
  | waiting | stopped =>
    rw [hl] at hi
    exact h.current hi
  | handling events =>
    rw [hl] at hi
    exact ⟨h.current hi.1, h.pending hi.2⟩
  | accepted c events | added c events =>
    rw [hl] at hi held
    exact ⟨h.fresh hi.1 (held c rfl), h.pending hi.2⟩
  | removed fd events =>
    rw [hl] at hi
    refine ⟨h.current hi.1, h.pending hi.2.1, fun c he ho ha => ?_⟩
    have he := h.entry fd c he
    rcases h.armed fd ha with ha | ⟨c', hf, hn⟩
    · exact hi.2.2 c he (h.opened c ho) ha
    · have hc := hi.1 fd c c' hf he
      exact hn (hc ▸ hi.2.1.2 fd (List.mem_cons_self ..) c he)
  | found fd p events =>
    rw [hl] at hi held
    cases p with
    | none   => exact ⟨h.current hi.1, h.pending hi.2⟩
    | some c =>
      have ⟨hcur, hp, hfd, hlt, hf, ho, hid, ha⟩ := hi
      refine ⟨h.current hcur, h.pending hp, hfd, h.count ▸ hlt, (h.fd c).trans hf,
        (h.isOpen c ho).resolve_right fun hn => hn.elim (· hid) (· (held c rfl)), h.idle c hid, fun ha' => ?_⟩
      rcases h.armed fd ha' with ha' | ⟨c', hfc, hn⟩
      · exact ha ha'
      · have hcc := (hf ▸ hk.current c hlt ho).symm.trans hfc
        exact hn (Option.some.inj hcc ▸ hid)

end Aside

-- Steps after which no connection has got another task.
theorem Exclusive.mono (h : Exclusive s) {f : Place → Place} (hf : Function.Injective f)
    (ht : ∀ c p, s'.HasTask c p → s.HasTask c (f p))
    (hd : ∀ c p, s'.HasTask c p → (s'.conns c).isOpen → ¬s'.armed (s'.conns c).fd) : Exclusive s' where
  unique c p q hp hq := hf (h.unique c _ _ (ht c p hp) (ht c q hq))
  disarmed           := hd

section Worker

variable {job : Job} {stage : Stage}

theorem closing_setStage (hw : s.workers w = some job) (hs : job.stage ≠ .closed) (h : s.Closing c) :
    (s.setStage w job stage).Closing c := by
  have ⟨w', job', hw', hs', hc⟩ := h
  have hne : w' ≠ w := by
    rintro rfl
    cases hw.symm.trans hw'
    exact hs hs'
  exact ⟨w', job', by simpa [World.setStage, World.setJob, Function.update_of_ne hne] using hw', hs', hc⟩

theorem Inv.upgrade (h : Inv s) (hw : s.workers w = some job) (hs : job.stage = .serving) :
    Inv (s.setStage w job .upgraded) := by
  have hl : job.stage ≠ .left := by simp [hs]
  have ha : Aside s (s.setStage w job .upgraded) := ⟨rfl, rfl, fun _ => rfl, fun _ => id, fun _ => .inl, fun _ _ => id,
    fun _ => .inl, fun _ _ => id, fun _ => idle_setStage hw hl⟩
  refine ⟨⟨h.kernel.1, h.kernel.2, h.kernel.3⟩, ⟨fun fd c he => ?_, h.refs.task, fun w' job' hw' => ?_⟩,
    h.exclusive.mono Function.injective_id (fun c p => hasTask_of_setStage hw hl)
      fun c p hp => h.exclusive.disarmed c p (hasTask_of_setStage hw hl hp), ha.loopInv h.kernel h.loop⟩
  · have ⟨hlt, hf, ho⟩ := h.refs.entry fd c he
    exact ⟨hlt, hf, ho.imp_right (closing_setStage hw (by simp [hs]))⟩
  · rcases workers_of_setStage hw' with ⟨rfl, rfl⟩ | ⟨_, hw'⟩
    · have ⟨hlt, hf, ho⟩ := h.refs.job _ _ hw
      exact ⟨hlt, hf, fun _ => ho (.inl hs)⟩
    · exact h.refs.job w' job' hw'

theorem Inv.close (h : Inv s) (hw : s.workers w = some job) (hs : job.stage = .upgraded) :
    Inv ((s.close job.conn).setStage w job .closed) := by
  have hl : job.stage ≠ .left := by simp [hs]
  have ⟨hlt, hf, ho⟩ := h.refs.job w job hw
  have ho := ho (.inr hs)
  have ht := hasTask_running hw hl
  have hstage {c p} : ((s.close job.conn).setStage w job .closed).HasTask c p → s.HasTask c p :=
    hasTask_of_setStage (s := s.close job.conn) hw hl
  have ha : Aside s ((s.close job.conn).setStage w job .closed) := {
    loop      := rfl
    count     := rfl
    fd        := fd_close s job.conn
    opened _ ho := (isOpen_of_close ho).2
    isOpen c ho := by
      by_cases hc : c = job.conn
      case pos => exact .inr (.inl fun hi => hi _ (hc ▸ ht))
      case neg => exact .inl (isOpen_close ho hc)
    fds _ _ hf  := (fds_of_close hf).2
    armed _ ha  := .inl (armed_of_close ha).2
    entry _ _   := id
    idle c hi p hp := hi p (hstage hp)
  }
  refine ⟨⟨(h.kernel.close hlt ho).1, (h.kernel.close hlt ho).2, (h.kernel.close hlt ho).3⟩,
    ⟨fun fd c he => ?_, fun task hm => ?_, fun w' job' hw' => ?_⟩,
    h.exclusive.mono Function.injective_id (fun c p => hstage) fun c p hp ho' ha' => ?_, ha.loopInv h.kernel h.loop⟩
  · have ⟨hlt, hf, ho⟩ := h.refs.entry fd c he
    refine ⟨hlt, (fd_close ..).trans hf, ?_⟩
    by_cases hc : c = job.conn
    case pos => exact .inr ⟨w, { job with stage := .closed }, by simp [World.setStage, World.setJob], rfl, hc.symm⟩
    case neg => exact ho.imp (isOpen_close · hc) (closing_setStage (s := s.close job.conn) hw (by simp [hs]))
  · have ⟨hlt, hf, ho⟩ := h.refs.task task hm
    have ⟨i, hi⟩ := List.mem_iff_getElem?.mp hm
    have hc : task.conn ≠ job.conn := fun hc =>
      absurd (h.exclusive.unique _ (.queued i) _ ⟨task, hi, hc⟩ ht) (by simp)
    exact ⟨hlt, (fd_close ..).trans hf, isOpen_close ho hc⟩
  · rcases workers_of_setStage hw' with ⟨rfl, rfl⟩ | ⟨hne, hw'⟩
    · exact ⟨hlt, (fd_close ..).trans hf, fun ho => by simp [Stage.Open] at ho⟩
    · have ⟨hlt, hf, ho⟩ := h.refs.job w' job' hw'
      refine ⟨hlt, (fd_close ..).trans hf, fun hs' => isOpen_close (ho hs') fun hc => hne ?_⟩
      have hl' : job'.stage ≠ .left := by rcases hs' with hs' | hs' <;> simp [hs']
      exact h.exclusive.worker_eq (hc ▸ hasTask_running hw' hl') ht
  · exact h.exclusive.disarmed c p (hstage hp) (isOpen_of_close ho').2
      ((fd_close s job.conn c) ▸ (armed_of_close ha').2)

theorem connections_of_setEntry_none (h : (s.setEntry fd none).connections fd' = some entry) :
    fd' ≠ fd ∧ s.connections fd' = some entry := by
  by_cases hf : fd' = fd
  case pos => simp [World.setEntry, hf] at h
  case neg => exact ⟨hf, by simpa [World.setEntry, Function.update_of_ne hf] using h⟩

theorem Inv.erase (h : Inv s) (hw : s.workers w = some job) (hl : job.stage ≠ .left) :
    Inv ((s.setEntry job.fd none).setStage w job .left) := by
  have ⟨_, hf, _⟩ := h.refs.job w job hw
  have hstage {c p} : ((s.setEntry job.fd none).setStage w job .left).HasTask c p → s.HasTask c p :=
    hasTask_of_setStage (s := s.setEntry job.fd none) hw hl
  have ha : Aside s ((s.setEntry job.fd none).setStage w job .left) := ⟨rfl, rfl, fun _ => rfl, fun _ => id, fun _ => .inl,
    fun _ _ => id, fun _ => .inl, fun _ _ he => (connections_of_setEntry_none he).2, fun _ hi p hp => hi p (hstage hp)⟩
  refine ⟨⟨h.kernel.1, h.kernel.2, h.kernel.3⟩, ⟨fun fd c he => ?_, h.refs.task, fun w' job' hw' => ?_⟩,
    h.exclusive.mono Function.injective_id (fun c p => hstage)
      fun c p hp => h.exclusive.disarmed c p (hstage hp), ha.loopInv h.kernel h.loop⟩
  · have ⟨hne, he⟩ := connections_of_setEntry_none he
    have ⟨hlt, hfc, ho⟩ := h.refs.entry fd c he
    refine ⟨hlt, hfc, ho.imp_right fun ⟨w', job', hw', hs', hc⟩ => ?_⟩
    have hww : w' ≠ w := by
      rintro rfl
      cases hw.symm.trans hw'
      exact hne (hfc.symm.trans (hc ▸ hf))
    exact ⟨w', job', (Function.update_of_ne hww ..).trans hw', hs', hc⟩
  · rcases workers_of_setStage hw' with ⟨rfl, rfl⟩ | ⟨_, hw'⟩
    · have ⟨hlt, hf, _⟩ := h.refs.job _ _ hw
      exact ⟨hlt, hf, fun ho => by simp [Stage.Open] at ho⟩
    · exact h.refs.job w' job' hw'

theorem armed_of_add (h : (s.add fd).armed fd') : s.armed fd' ∨ fd' = fd ∧ (s.fds fd).isSome := by
  by_cases hf : fd' = fd
  case pos => exact .inr ⟨hf, by simpa [World.add, hf] using h⟩
  case neg => exact .inl (by simpa [World.add, Function.update_of_ne hf] using h)

theorem Inv.rearm (h : Inv s) (hw : s.workers w = some job) (hs : job.stage = .serving) :
    Inv ((s.add job.fd).setStage w job .left) := by
  have hl : job.stage ≠ .left := by simp [hs]
  have ⟨hlt, hf, ho⟩ := h.refs.job w job hw
  have hcur : s.fds job.fd = some job.conn := hf ▸ h.kernel.current _ hlt (ho (.inl hs))
  have hstage {c p} : ((s.add job.fd).setStage w job .left).HasTask c p → s.HasTask c p :=
    hasTask_of_setStage (s := s.add job.fd) hw hl
  have ha : Aside s ((s.add job.fd).setStage w job .left) := {
    loop         := rfl
    count        := rfl
    fd _         := rfl
    opened _     := id
    isOpen _     := .inl
    fds _ _      := id
    armed fd ha  := (armed_of_add ha).imp_right fun ⟨hfd, _⟩ =>
      ⟨job.conn, hfd ▸ hcur, fun hi => hi _ (hasTask_running hw hl)⟩
    entry _ _    := id
    idle _ hi p hp := hi p (hstage hp)
  }
  refine ⟨⟨(h.kernel.add job.fd).1, (h.kernel.add job.fd).2, (h.kernel.add job.fd).3⟩,
    ⟨fun fd c he => ?_, h.refs.task, fun w' job' hw' => ?_⟩,
    h.exclusive.mono Function.injective_id (fun c p => hstage) fun c p hp ho' ha' => ?_, ha.loopInv h.kernel h.loop⟩
  · have ⟨hlt, hf, ho⟩ := h.refs.entry fd c he
    exact ⟨hlt, hf, ho.imp_right (closing_setStage (s := s.add job.fd) hw (by simp [hs]))⟩
  · rcases workers_of_setStage hw' with ⟨rfl, rfl⟩ | ⟨_, hw'⟩
    · exact ⟨hlt, hf, fun ho => by simp [Stage.Open] at ho⟩
    · exact h.refs.job w' job' hw'
  · have hne := not_hasTask_of_left (s := s.add job.fd) h.exclusive.unique hw hl hp
    rcases armed_of_add ha' with ha' | ⟨hfd, _⟩
    · exact h.exclusive.disarmed c p (hstage hp) ho' ha'
    · have hcc := h.kernel.current c (h.refs.lt_of_hasTask (hstage hp)) ho'
      exact hne (Option.some.inj ((hfd ▸ hcc).symm.trans hcur))

theorem Inv.finish (h : Inv s) (hw : s.workers w = some job) (hl : job.stage = .left) : Inv (s.setJob w none) := by
  have hworkers {w' job'} (hw' : (s.setJob w none).workers w' = some job') : s.workers w' = some job' :=
    (workers_of_setJob hw').elim (fun hn => absurd hn.2 (by simp)) And.right
  have ha : Aside s (s.setJob w none) := ⟨rfl, rfl, fun _ => rfl, fun _ => id, fun _ => .inl, fun _ _ => id,
    fun _ => .inl, fun _ _ => id, fun _ hi p hp => hi p (hasTask_of_finish hp)⟩
  refine ⟨⟨h.kernel.1, h.kernel.2, h.kernel.3⟩,
    ⟨fun fd c he => ?_, h.refs.task, fun w' job' hw' => h.refs.job w' job' (hworkers hw')⟩,
    h.exclusive.mono Function.injective_id (fun c p => hasTask_of_finish)
      fun c p hp => h.exclusive.disarmed c p (hasTask_of_finish hp), ha.loopInv h.kernel h.loop⟩
  have ⟨hlt, hf, ho⟩ := h.refs.entry fd c he
  refine ⟨hlt, hf, ho.imp_right fun ⟨w', job', hw', hs', hc⟩ => ?_⟩
  have hww : w' ≠ w := by
    rintro rfl
    cases hw.symm.trans hw'
    simp [hl] at hs'
  exact ⟨w', job', (Function.update_of_ne hww ..).trans hw', hs', hc⟩

theorem Inv.take (h : Inv s) (ht : s.tasks = task :: tasks) (hw : s.workers w = none) :
    Inv { s.setJob w (some { task with stage := .serving }) with tasks } := by
  have hfirst := h.refs.task task (ht ▸ List.mem_cons_self ..)
  have ha : Aside s { s.setJob w (some { task with stage := .serving }) with tasks } :=
    ⟨rfl, rfl, fun _ => rfl, fun _ => id, fun _ => .inl, fun _ _ => id, fun _ => .inl, fun _ _ => id,
      fun _ hi p hp => hi _ (hasTask_of_take ht hp)⟩
  refine ⟨⟨h.kernel.1, h.kernel.2, h.kernel.3⟩,
    ⟨fun fd c he => ?_, fun task' hm => h.refs.task task' (ht ▸ List.mem_cons_of_mem _ hm), fun w' job' hw' => ?_⟩,
    h.exclusive.mono (untake_injective w) (fun c p => hasTask_of_take ht)
      fun c p hp => h.exclusive.disarmed c _ (hasTask_of_take ht hp), ha.loopInv h.kernel h.loop⟩
  · have ⟨hlt, hf, ho⟩ := h.refs.entry fd c he
    refine ⟨hlt, hf, ho.imp_right fun ⟨w', job', hw', hs', hc⟩ => ?_⟩
    have hww : w' ≠ w := by
      rintro rfl
      exact absurd (hw.symm.trans hw') (by simp)
    exact ⟨w', job', (Function.update_of_ne hww ..).trans hw', hs', hc⟩
  · rcases workers_of_setJob hw' with ⟨_, hj⟩ | ⟨_, hw'⟩
    · cases hj
      exact ⟨hfirst.1, hfirst.2.1, fun _ => hfirst.2.2⟩
    · exact h.refs.job w' job' hw'

theorem Inv.destroy (h : Inv s) (hlt : c < s.count) (ho : (s.conns c).isOpen) (hh : ¬s.Held c) : Inv (s.close c) := by
  have ha : Aside s (s.close c) := {
    loop      := rfl
    count     := rfl
    fd        := fd_close s c
    opened _ ho := (isOpen_of_close ho).2
    isOpen c' ho := by
      by_cases hc : c' = c
      case pos => exact .inr (.inr (hc ▸ hh))
      case neg => exact .inl (isOpen_close ho hc)
    fds _ _ hf  := (fds_of_close hf).2
    armed _ ha  := .inl (armed_of_close ha).2
    entry _ _   := id
    idle _      := id
  }
  refine ⟨h.kernel.close hlt ho, ⟨fun fd c' he => ?_, fun task hm => ?_, fun w' job' hw' => ?_⟩,
    h.exclusive.mono Function.injective_id (fun c p => id) fun c' p hp ho' ha' => ?_, ha.loopInv h.kernel h.loop⟩
  · have ⟨hlt, hf, ho⟩ := h.refs.entry fd c' he
    have hc : c' ≠ c := fun hc => hh (.inl ⟨fd, hc ▸ he⟩)
    exact ⟨hlt, (fd_close ..).trans hf, ho.imp_left (isOpen_close · hc)⟩
  · have ⟨hlt, hf, ho⟩ := h.refs.task task hm
    exact ⟨hlt, (fd_close ..).trans hf, isOpen_close ho fun hc => hh (.inr (.inl ⟨task, hm, hc⟩))⟩
  · have ⟨hlt, hf, ho⟩ := h.refs.job w' job' hw'
    exact ⟨hlt, (fd_close ..).trans hf,
      fun hs => isOpen_close (ho hs) fun hc => hh (.inr (.inr (.inl ⟨w', job', hw', hc⟩)))⟩
  · exact h.exclusive.disarmed c' p hp (isOpen_of_close ho').2 ((fd_close s c c') ▸ (armed_of_close ha').2)

theorem Inv.clear (h : Inv s) : Inv { s with connections := fun _ => none } := by
  have ha : Aside s { s with connections := fun _ => none } := ⟨rfl, rfl, fun _ => rfl, fun _ => id, fun _ => .inl,
    fun _ _ => id, fun _ => .inl, nofun, fun _ => id⟩
  exact ⟨⟨h.kernel.1, h.kernel.2, h.kernel.3⟩, ⟨nofun, h.refs.task, h.refs.job⟩,
    ⟨h.exclusive.unique, h.exclusive.disarmed⟩, ha.loopInv h.kernel h.loop⟩

end Worker

section Loop

variable {events : List Event} {l : Loop}

theorem loopInv_setLoop {l' : Loop} (h : s.LoopInv l) : World.LoopInv { s with loop := l' } l := by
  cases l with
  | accepted | added => exact ⟨⟨h.1.1, h.1.2, h.1.3, h.1.4, h.1.5⟩, h.2⟩
  | found _ c        => cases c <;> exact h
  | _                => exact h

theorem Inv.setLoop (h : Inv s) (hl : s.LoopInv l) : Inv { s with loop := l } :=
  ⟨⟨h.kernel.1, h.kernel.2, h.kernel.3⟩, ⟨h.refs.entry, h.refs.task, h.refs.job⟩,
    ⟨h.exclusive.unique, h.exclusive.disarmed⟩, loopInv_setLoop hl⟩

theorem Inv.loop_of (h : Inv s) (hl : s.loop = l) : s.LoopInv l :=
  hl ▸ h.loop

theorem clients_nodup (h : events.Nodup) : (clients events).Nodup := by
  refine h.filterMap fun e e' fd he he' => ?_
  cases e <;> cases e' <;> simp_all

theorem mem_clients : fd ∈ clients events ↔ .client fd ∈ events := by
  constructor
  · intro h
    have ⟨e, hm, he⟩ := List.mem_filterMap.mp h
    cases e with
    | listener  => contradiction
    | client _  => exact Option.some.inj he ▸ hm
  · exact fun h => List.mem_filterMap.mpr ⟨_, h, rfl⟩

-- A connection is not in use if its descriptor is armed.
theorem Inv.wait (h : Inv s) (hl : s.loop = .waiting) (hn : events.Nodup)
    (ha : ∀ fd, .client fd ∈ events → s.armed fd) : Inv { s with loop := .handling events } := by
  have hcur := h.loop_of hl
  refine h.setLoop ⟨hcur, clients_nodup hn, fun fd hm c he p hp => ?_⟩
  have ha := ha fd (mem_clients.mp hm)
  have ⟨c', hf⟩ := Option.isSome_iff_exists.mp (h.kernel.armed fd ha)
  have hc := hcur fd c c' hf he
  have ⟨_, ho, hfd⟩ := h.kernel.owner fd c' hf
  subst hc hfd
  exact h.exclusive.disarmed c p hp ho ha

theorem Inv.accept (h : Inv s) (hl : s.loop = .handling (.listener :: events)) (hf : s.fds fd = none) :
    Inv { s with conns := Function.update s.conns s.count { fd, isOpen := true }, count := s.count + 1,
                 fds := Function.update s.fds fd (some s.count), loop := .accepted s.count events } := by
  have ⟨hcur, hp⟩ := h.loop_of hl
  have hconn {c} (hc : c < s.count) :
      Function.update s.conns s.count { fd, isOpen := true } c = s.conns c := Function.update_of_ne hc.ne ..
  refine ⟨⟨fun c hc ho => ?_, fun fd' c hfd => ?_, fun fd' ha => ?_⟩,
    ⟨fun fd' c he => ?_, fun task hm => ?_, fun w job hw => ?_⟩, ⟨h.exclusive.unique, fun c p hp => ?_⟩, ?_, hp⟩
  · by_cases hcc : c = s.count
    case pos => simp [hcc]
    case neg =>
      have hlt : c < s.count := Nat.lt_of_le_of_ne (Nat.le_of_lt_succ hc) hcc
      simp only [hconn hlt] at ho ⊢
      have hown := h.kernel.current c hlt ho
      have hne : (s.conns c).fd ≠ fd := by
        rintro rfl
        exact absurd (hf.symm.trans hown) (by simp)
      simpa [Function.update_of_ne hne] using hown
  · by_cases hff : fd' = fd
    case pos =>
      simp only [hff, Function.update_self, Option.some.injEq] at hfd
      subst hfd
      simp [hff]
    case neg =>
      simp only [Function.update_of_ne hff] at hfd
      have ⟨hlt, ho, hc⟩ := h.kernel.owner fd' c hfd
      simp only [hconn hlt]
      exact ⟨by omega, ho, hc⟩
  · have := h.kernel.armed fd' ha
    by_cases hff : fd' = fd
    case pos => simp [hff]
    case neg => simpa [Function.update_of_ne hff] using this
  · have ⟨hlt, hfd, ho⟩ := h.refs.entry fd' c he
    simp only [hconn hlt]
    exact ⟨by omega, hfd, ho⟩
  · have ⟨hlt, hfd, ho⟩ := h.refs.task task hm
    simp only [hconn hlt]
    exact ⟨by omega, hfd, ho⟩
  · have ⟨hlt, hfd, ho⟩ := h.refs.job w job hw
    simp only [hconn hlt]
    exact ⟨by omega, hfd, ho⟩
  · simp only [hconn (h.refs.lt_of_hasTask hp)]
    exact h.exclusive.disarmed c p hp
  · refine ⟨by simp, by simp, fun p hp => ?_, fun fd' he => ?_, fun fd' c₁ c₂ hne hfd he => ?_⟩
    · exact absurd (h.refs.lt_of_hasTask hp) (Nat.lt_irrefl _)
    · exact absurd (h.refs.entry fd' _ he).1 (Nat.lt_irrefl _)
    · simp only [Function.update_self] at hne
      simp only [Function.update_of_ne hne] at hfd
      exact hcur fd' c₁ c₂ hfd he

theorem Inv.add (h : Inv s) (hl : s.loop = .accepted c events) :
    Inv { s.add (s.conns c).fd with loop := .added c events } := by
  have ⟨hfresh, hp⟩ := h.loop_of hl
  have hk := h.kernel.add (s.conns c).fd
  refine ⟨⟨hk.1, hk.2, hk.3⟩, ⟨h.refs.entry, h.refs.task, h.refs.job⟩, ⟨h.exclusive.unique, fun c' p hp ho ha => ?_⟩,
    ⟨hfresh.1, hfresh.2, hfresh.3, hfresh.4, hfresh.5⟩, hp⟩
  rcases armed_of_add ha with ha | ⟨hfd, _⟩
  · exact h.exclusive.disarmed c' p hp ho ha
  · have := h.kernel.conn_eq (h.refs.lt_of_hasTask hp) ho hfresh.lt hfresh.isOpen hfd
    exact hfresh.idle p (this ▸ hp)

theorem connections_of_setEntry (h : (s.setEntry fd entry).connections fd' = some (some c)) :
    fd' = fd ∧ entry = some (some c) ∨ fd' ≠ fd ∧ s.connections fd' = some (some c) := by
  by_cases hf : fd' = fd
  case pos => exact .inl ⟨hf, by simpa [World.setEntry, hf] using h⟩
  case neg => exact .inr ⟨hf, by simpa [World.setEntry, Function.update_of_ne hf] using h⟩

theorem Inv.insert (h : Inv s) (hl : s.loop = .added c events) :
    Inv { s.setEntry (s.conns c).fd (some (some c)) with loop := .handling events } := by
  have ⟨hfresh, hp⟩ := h.loop_of hl
  refine ⟨⟨h.kernel.1, h.kernel.2, h.kernel.3⟩, ⟨fun fd c' he => ?_, h.refs.task, h.refs.job⟩,
    ⟨h.exclusive.unique, h.exclusive.disarmed⟩, fun fd c₁ c₂ hf he => ?_, hp.1, fun fd hm c' he => ?_⟩
  · rcases connections_of_setEntry he with ⟨hf, hc⟩ | ⟨_, he⟩
    · cases hc
      exact ⟨hfresh.lt, hf.symm, .inl hfresh.isOpen⟩
    · exact h.refs.entry fd c' he
  · rcases connections_of_setEntry he with ⟨hfd, hc⟩ | ⟨hne, he⟩
    · cases hc
      exact Option.some.inj ((h.kernel.current c hfresh.lt hfresh.isOpen).symm.trans (hfd ▸ hf))
    · exact hfresh.current fd c₁ c₂ hne hf he
  · rcases connections_of_setEntry he with ⟨_, hc⟩ | ⟨_, he⟩
    · cases hc
      exact hfresh.idle
    · exact hp.2 fd hm c' he

theorem Inv.remove (h : Inv s) (hl : s.loop = .handling (.client fd :: events)) :
    Inv { s.remove fd with loop := .removed fd events } := by
  have ⟨hcur, hp⟩ := h.loop_of hl
  have hk := h.kernel.remove fd
  refine ⟨⟨hk.1, hk.2, hk.3⟩, ⟨h.refs.entry, h.refs.task, h.refs.job⟩, ⟨h.exclusive.unique, fun c p hp ho ha => ?_⟩,
    hcur, hp, fun c _ _ ha => by simp [World.remove] at ha⟩
  refine h.exclusive.disarmed c p hp ho ?_
  by_cases hf : (s.conns c).fd = fd
  case pos => simp [World.remove, hf] at ha
  case neg => simpa [World.remove, Function.update_of_ne hf] using ha

theorem connections_lookup : (s.setEntry fd (some (s.connections fd).join)).connections fd' = some (some c) ↔
    s.connections fd' = some (some c) := by
  by_cases hf : fd' = fd
  case pos => simpa [World.setEntry, hf] using Option.join_eq_some_iff
  case neg => simp [World.setEntry, Function.update_of_ne hf]

theorem Inv.lookup (h : Inv s) (hl : s.loop = .removed fd events) :
    Inv { s.setEntry fd (some (s.connections fd).join) with loop := .found fd (s.connections fd).join events } := by
  have ⟨hcur, hp, hd⟩ := h.loop_of hl
  have hn := List.nodup_cons.mp hp.1
  refine ⟨⟨h.kernel.1, h.kernel.2, h.kernel.3⟩, ⟨fun fd' c he => h.refs.entry fd' c (connections_lookup.mp he),
    h.refs.task, h.refs.job⟩, ⟨h.exclusive.unique, h.exclusive.disarmed⟩, ?_⟩
  have hcur' : (s.setEntry fd (some (s.connections fd).join)).Current :=
    fun fd' c c' hf he => hcur fd' c c' hf (connections_lookup.mp he)
  have hp' : (s.setEntry fd (some (s.connections fd).join)).Pending (clients events) :=
    ⟨hn.2, fun fd' hm c he => hp.2 fd' (List.mem_cons_of_mem _ hm) c (connections_lookup.mp he)⟩
  have hfound c (hc : (s.connections fd).join = c) :
      (s.setEntry fd (some (s.connections fd).join)).LoopInv (.found fd c events) := by
    cases c with
    | none   => exact ⟨hcur', hp'⟩
    | some c =>
      have he : s.connections fd = some (some c) := Option.join_eq_some_iff.mp hc
      have ⟨hlt, hf, ho⟩ := h.refs.entry fd c he
      have hi := hp.2 fd (List.mem_cons_self ..) c he
      have ho := ho.resolve_right fun hc => hc.not_idle hi
      exact ⟨hcur', hp', hn.1, hlt, hf, ho, hi, hd c he ho⟩
  exact loopInv_setLoop (hfound _ rfl)

theorem Inv.submit (h : Inv s) (hl : s.loop = .found fd (some c) events) :
    Inv { s with tasks := s.tasks ++ [{ fd, conn := c }], loop := .handling events } := by
  have ⟨hcur, hp, hfd, hlt, hf, ho, hi, ha⟩ := h.loop_of hl
  refine ⟨⟨h.kernel.1, h.kernel.2, h.kernel.3⟩, ⟨h.refs.entry, fun task hm => ?_, h.refs.job⟩,
    ⟨fun c' p q hcp hcq => ?_, fun c' p hcp ho' => ?_⟩, hcur, hp.1, fun fd' hm c' he p hcp => ?_⟩
  · rcases List.mem_append.mp hm with hm | hm
    · exact h.refs.task task hm
    · cases List.mem_singleton.mp hm
      exact ⟨hlt, hf, ho⟩
  · rcases hasTask_of_submit hcp with hcp | ⟨hp, hc⟩ <;> rcases hasTask_of_submit hcq with hcq | ⟨hq, hc'⟩
    · exact h.exclusive.unique c' p q hcp hcq
    · exact absurd (hc' ▸ hcp) (hi p)
    · exact absurd (hc ▸ hcq) (hi q)
    · exact hp.trans hq.symm
  · rcases hasTask_of_submit hcp with hcp | ⟨_, hc⟩
    · exact h.exclusive.disarmed c' p hcp ho'
    · subst hc hf
      exact ha
  · rcases hasTask_of_submit hcp with hcp | ⟨_, hc⟩
    · exact hp.2 fd' hm c' he p hcp
    · have hf' := (h.refs.entry fd' c' he).2.1
      subst hc hf
      exact hfd (hf' ▸ hm)

end Loop

theorem Inv.setFlags {running listening : Bool} (h : Inv s) : Inv { s with running, listening } := by
  have ha : Aside s { s with running, listening } := ⟨rfl, rfl, fun _ => rfl, fun _ => id, fun _ => .inl,
    fun _ _ => id, fun _ => .inl, fun _ _ => id, fun _ => id⟩
  exact ⟨⟨h.kernel.1, h.kernel.2, h.kernel.3⟩, ⟨h.refs.entry, h.refs.task, h.refs.job⟩,
    ⟨h.exclusive.unique, h.exclusive.disarmed⟩, ha.loopInv h.kernel h.loop⟩

theorem Inv.start : Inv .start where
  kernel    := ⟨nofun, nofun, nofun⟩
  refs      := ⟨nofun, nofun, nofun⟩
  exclusive := ⟨fun _ p _ hp => by cases p <;> simp [World.HasTask, World.start] at hp, fun _ p hp => by
    cases p <;> simp [World.HasTask, World.start] at hp⟩
  loop      := nofun

theorem Inv.step (h : Inv s) (hs : Step n s e s') : Inv s' := by
  cases hs with
  | wait hl hn ha      => exact h.wait hl hn ha
  | again hl           =>
    have hcur := (h.loop_of hl).1
    split <;> exact h.setLoop hcur
  | accept hl _ hf     => exact h.accept hl hf
  | refuse hl          =>
    have hi := h.loop_of hl
    exact h.setLoop (l := .handling _) hi
  | add hl             => exact h.add hl
  | insert hl          => exact h.insert hl
  | remove hl          => exact h.remove hl
  | lookup hl          => exact h.lookup hl
  | submit hl          => exact h.submit hl
  | skip hl            =>
    have hi := h.loop_of hl
    exact h.setLoop (l := .handling _) hi
  | take ht _ hw       => exact h.take ht hw
  | upgrade hw hs      => exact h.upgrade hw hs
  | close hw hs        => exact h.close hw hs
  | erase hw hl        => exact h.erase hw hl
  | rearm hw hs        => exact h.rearm hw hs
  | finish hw hl       => exact h.finish hw hl
  | destroy hlt ho hh  => exact h.destroy hlt ho hh
  | clear              => exact h.clear
  | stop | unlisten    => exact h.setFlags

theorem Inv.of_run (h : Run (Step n) .start tr s) : Inv s :=
  h.invariant .start fun _ _ _ hs hi => hi.step hs

-- Each connection has at most one task that has not been left, and with it its descriptor is not armed.
-- So two workers that read from a connection or write to it are the same.
theorem one_worker (h : Run (Step n) .start tr s) :
    (∀ c p q, s.HasTask c p → s.HasTask c q → p = q) ∧
    (∀ c p, s.HasTask c p → (s.conns c).isOpen → ¬s.armed (s.conns c).fd) ∧
    ∀ w w' job job', s.workers w = some job → s.workers w' = some job' → job.stage ≠ .left → job'.stage ≠ .left →
      job.conn = job'.conn → w = w' := by
  have hi := Inv.of_run h
  refine ⟨hi.exclusive.unique, hi.exclusive.disarmed, fun w w' job job' hw hw' hs hs' hc => ?_⟩
  exact hi.exclusive.worker_eq (hasTask_running hw hs) (hc ▸ hasTask_running hw' hs')

-- A connection that has been accepted, and the worker that serves it.
theorem one_worker_serving : ∃ s : World, s.HasTask 0 (.running 0) ∧ (∀ p, s.HasTask 0 p → p = .running 0) ∧
    ¬s.armed (s.conns 0).fd := by
  have h : ∃ s, Run (Step 1) .start [.wait [.listener], .accept 5, .add, .insert, .again, .wait [.client 5], .remove,
      .lookup, .submit, .again, .take 0] s ∧ s.workers 0 = some { fd := 5, conn := 0, stage := .serving } ∧
      (s.conns 0).isOpen := by
    refine ⟨_, .cons (.wait rfl (List.nodup_singleton _) (by simp)) (.cons (.accept rfl rfl rfl) (.cons (.add rfl)
      (.cons (.insert rfl) (.cons (.again rfl) (.cons (.wait rfl (List.nodup_singleton _) ?_) (.cons (.remove rfl)
      (.cons (.lookup rfl) (.cons (.submit rfl) (.cons (.again rfl) (.single (.take rfl Nat.one_pos rfl))))))))))),
      rfl, rfl⟩
    intro fd hm
    cases List.mem_singleton.mp hm
    rfl
  have ⟨s, hr, hw, ho⟩ := h
  have ht : s.HasTask 0 (.running 0) := hasTask_running hw (by simp)
  have ⟨hu, hd, _⟩ := one_worker hr
  exact ⟨s, ht, fun p hp => hu 0 p _ hp ht, hd 0 _ ht ho⟩

end YNet.Workers
