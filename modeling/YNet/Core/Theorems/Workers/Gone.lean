import YNet.Core.Theorems.Workers.Exclusive

namespace YNet.Workers

variable {s s' : World} {c w n : Nat} {tr : List Act}

section Shut

-- A handler that has closed its connection has it closed for good.
def Shut (s : World) : Prop :=
  ∀ w job, s.workers w = some job → job.stage = .closed → ¬(s.conns job.conn).isOpen

theorem Shut.frame (h : Shut s) (hj : ∀ w job, s'.workers w = some job → job.stage = .closed → s.workers w = some job)
    (hc : s'.conns = s.conns) : Shut s' :=
  fun w job hw hs => hc ▸ h w job (hj w job hw hs) hs

theorem Shut.setStage {job : Job} (h : Shut s) (hs : stage ≠ .closed) (hw : s'.workers = s.workers)
    (hc : s'.conns = s.conns) : Shut (s'.setStage w job stage) := by
  refine h.frame (fun w' job' hw' hs' => ?_) hc
  rcases workers_of_setStage hw' with ⟨_, rfl⟩ | ⟨_, hw'⟩
  · exact absurd hs' hs
  · exact hw ▸ hw'

theorem Shut.step (h : Shut s) (hi : Inv s) (hs : Step n s a s') : Shut s' := by
  cases hs with
  | accept hl _ hf   =>
    intro w job hw hc
    have hlt := (hi.refs.job w job hw).1
    have := h w job hw hc
    simpa only [Function.update_of_ne hlt.ne] using this
  | close hw hstage  =>
    intro w' job' hw' hs'
    rcases workers_of_setStage hw' with ⟨_, rfl⟩ | ⟨_, hw'⟩
    · simp [World.setStage, World.setJob, World.close]
    · exact fun ho => h w' job' hw' hs' (isOpen_of_close ho).2
  | destroy hlt ho _ => exact fun w job hw hc ho => h w job hw hc (isOpen_of_close ho).2
  | take ht _ hw     =>
    refine h.frame (fun w' job' hw' hs' => ?_) rfl
    rcases workers_of_setJob hw' with ⟨_, hj⟩ | ⟨_, hw'⟩
    · cases hj
      simp at hs'
    · exact hw'
  | finish hw hl     =>
    exact h.frame (fun w' job' hw' _ => (workers_of_setJob hw').elim (fun hn => absurd hn.2 (by simp)) And.right) rfl
  | upgrade          => exact h.setStage (by simp) rfl rfl
  | erase            => exact h.setStage (by simp) rfl rfl
  | rearm            => exact h.setStage (by simp) rfl rfl
  | _                => exact h

theorem Shut.of_run (h : Run (Step n) .start tr s) : Shut s :=
  h.history (I := fun _ s => Shut s) nofun fun _ _ _ _ hr hs hi => hi.step (.of_run hr) hs

end Shut

section Gone

-- A connection that is not served any more.
structure Gone (s : World) (c : Nat) : Prop where
  lt     : c < s.count
  idle   : s.Idle c
  absent : ∀ fd, s.connections fd ≠ some (some c)
  loop   : s.loop.conn ≠ some c

theorem Gone.frame (h : Gone s c) (hcount : s'.count = s.count) (hi : s.Idle c → s'.Idle c)
    (he : ∀ fd, s'.connections fd = some (some c) → s.connections fd = some (some c))
    (hl : s'.loop.conn = some c → s.loop.conn = some c) : Gone s' c :=
  ⟨hcount ▸ h.lt, hi h.idle, fun fd hc => h.absent fd (he fd hc), fun hc => h.loop (hl hc)⟩

theorem Gone.step (h : Gone s c) (hs : Step n s a s') : Gone s' c := by
  cases hs with
  | accept hl _ _    =>
    exact ⟨Nat.lt_succ_of_lt h.lt, h.idle, h.absent, fun hc => h.lt.ne' (Option.some.inj hc)⟩
  | add hl           => exact h.frame rfl id (fun _ => id) fun hc => by rw [hl]; exact hc
  | insert hl        =>
    refine h.frame rfl id (fun fd he => ?_) nofun
    rcases connections_of_setEntry he with ⟨_, hc⟩ | ⟨_, he⟩
    · exact absurd (by rw [hl]; exact Option.some.inj hc) h.loop
    · exact he
  | lookup hl        =>
    refine h.frame rfl id (fun fd he => connections_lookup.mp he) fun hc => ?_
    exact absurd (Option.join_eq_some_iff.mp hc) (h.absent _)
  | submit hl        =>
    refine h.frame rfl (fun hi p hp => ?_) (fun _ => id) nofun
    rcases hasTask_of_submit hp with hp | ⟨_, hc⟩
    · exact hi p hp
    · exact h.loop (by rw [hl, hc]; rfl)
  | take ht _ _      => exact h.frame rfl (fun hi p hp => hi _ (hasTask_of_take ht hp)) (fun _ => id) id
  | upgrade hw hs    => exact h.frame rfl (idle_setStage hw (by simp [hs])) (fun _ => id) id
  | close hw hs      =>
    refine h.frame rfl (fun hi p hp => hi p ?_) (fun _ => id) id
    exact hasTask_of_setStage (s := s.close _) hw (by simp [hs]) hp
  | erase hw hl      =>
    refine h.frame rfl (fun hi p hp => hi p ?_) (fun _ he => (connections_of_setEntry_none he).2) id
    exact hasTask_of_setStage (s := s.setEntry _ none) hw hl hp
  | rearm hw hs      =>
    refine h.frame rfl (fun hi p hp => hi p ?_) (fun _ => id) id
    exact hasTask_of_setStage (s := s.add _) hw (by simp [hs]) hp
  | finish hw hl     => exact h.frame rfl (fun hi p hp => hi p (hasTask_of_finish hp)) (fun _ => id) id
  | clear            => exact h.frame rfl id nofun id
  | destroy          => exact h.frame rfl id (fun _ => id) id
  | stop | unlisten  => exact h.frame rfl id (fun _ => id) id
  | again hl         => exact h.frame rfl id (fun _ => id) fun hc => by split at hc <;> simp [Loop.conn] at hc
  | wait hl | refuse hl | remove hl | skip hl => exact h.frame rfl id (fun _ => id) nofun

theorem Gone.run (h : Gone s c) (hr : Run (Step n) s tr s') : Gone s' c :=
  hr.invariant (I := fun s => Gone s c) h fun _ _ _ hs hg => hg.step hs

-- With its entry, a connection is gone.
theorem Gone.of_erase (h : Inv s) (hw : s.workers w = some job) (hl : job.stage ≠ .left) :
    Gone ((s.setEntry job.fd none).setStage w job .left) job.conn := by
  have ht := hasTask_running hw hl
  have ⟨hlt, hf, _⟩ := h.refs.job w job hw
  refine ⟨hlt, fun p hp => ?_, fun fd he => ?_, fun hc => ?_⟩
  · exact not_hasTask_of_left (s := s.setEntry job.fd none) h.exclusive.unique hw hl hp rfl
  · have ⟨hne, he⟩ := connections_of_setEntry_none he
    exact hne ((h.refs.entry fd _ he).2.1.symm.trans hf)
  · -- The event loop refers only to connections that are idle.
    have hi := h.loop
    have hc : s.loop.conn = some job.conn := hc
    cases hloop : s.loop with
    | accepted c events | added c events =>
      rw [hloop] at hi hc
      cases hc
      exact hi.1.idle _ ht
    | found fd c events                  =>
      rw [hloop] at hi hc
      obtain rfl : c = some job.conn := hc
      exact hi.2.2.2.2.2.2.1 _ ht
    | _                                  => simp [hloop, Loop.conn] at hc

end Gone

end YNet.Workers
