import YNet.Core.Theorems.Workers.Exclusive

namespace YNet.Workers

variable {s s' : World} {n c fd w : Nat} {tr : List Act}

-- No connection is accepted with the descriptor of one that has been closed by its handler and whose
-- entry has not been erased yet.
def Spares (s : World) : Act → Prop
  | .accept fd => ∀ w job, s.workers w = some job → job.stage = .closed → job.fd ≠ fd
  | _          => True

def SparingStep (numThreads : Nat) (s : World) (e : Act) (s' : World) : Prop :=
  Step numThreads s e s' ∧ Spares s e

-- The connection that is not in the table yet.
def Loop.fresh : Loop → Option Nat
  | .accepted c _ | .added c _ => some c
  | _                          => none

-- The connection is in the table unless its own handler has removed it or the server has been stopped.
def Kept (tr : List Act) (s : World) (c : Nat) : Prop :=
  s.connections (s.conns c).fd = some (some c) ∨ (∃ w, .erase w (s.conns c).fd c ∈ tr) ∨ .clear ∈ tr

structure Own (tr : List Act) (s : World) : Prop where
  closed : ∀ w job, s.workers w = some job → job.stage = .closed → s.fds job.fd = none
  apart  : ∀ w w' job job', s.workers w = some job → s.workers w' = some job' → job.stage = .closed →
    job'.stage = .closed → job.fd = job'.fd → w = w'
  kept   : ∀ c < s.count, s.loop.fresh ≠ some c → Kept tr s c

theorem Kept.append (h : Kept tr s c) (tr' : List Act) : Kept (tr ++ tr') s c :=
  h.imp_right fun h => h.imp (fun ⟨w, hm⟩ => ⟨w, List.mem_append_left _ hm⟩) (List.mem_append_left _ ·)

theorem Own.start : Own [] .start where
  closed := nofun
  apart  := nofun
  kept   := nofun

-- The entry under the descriptor of a running handler is its own.
theorem Own.entry_eq (h : Own tr s) (hi : Inv s) (hw : s.workers w = some job) (hl : job.stage ≠ .left)
    (he : s.connections job.fd = some (some c)) : c = job.conn := by
  have ⟨hlt, hf, ho⟩ := hi.refs.entry job.fd c he
  have ⟨hlt', hf', ho'⟩ := hi.refs.job w job hw
  by_cases hs : job.stage = .closed
  case pos =>
    have hnone := h.closed w job hw hs
    rcases ho with ho | ⟨w', job', hw', hs', hc⟩
    · exact absurd (hnone.symm.trans (hf ▸ hi.kernel.current c hlt ho)) (by simp)
    · have hff : job.fd = job'.fd := hf.symm.trans (hc ▸ (hi.refs.job w' job' hw').2.1)
      have hww := h.apart w w' job job' hw hw' hs hs' hff
      subst hww
      cases hw.symm.trans hw'
      exact hc.symm
  case neg =>
    have hopen : job.stage.Open := by
      unfold Stage.Open
      cases hj : job.stage <;> simp_all
    have ho' := ho' hopen
    have hcur := hf' ▸ hi.kernel.current job.conn hlt' ho'
    rcases ho with ho | ⟨w', job', hw', hs', hc⟩
    · exact hi.kernel.conn_eq hlt ho hlt' ho' (hf.trans hf'.symm)
    · have hnone := h.closed w' job' hw' hs'
      have hff : job'.fd = job.fd := (hi.refs.job w' job' hw').2.1.symm.trans (hc ▸ hf)
      exact absurd ((hff ▸ hnone).symm.trans hcur) (by simp)

-- There is nothing to be overwritten when a connection is put into the table.
theorem Own.fresh_ne (h : Own tr s) (hi : Inv s) (hf : s.Fresh c) (he : s.connections (s.conns c).fd = some (some c')) :
    False := by
  have ⟨hlt, hfd, ho⟩ := hi.refs.entry _ c' he
  rcases ho with ho | ⟨w', job', hw', hs', hc⟩
  · have hcc := hi.kernel.conn_eq hlt ho hf.lt hf.isOpen hfd
    exact hf.absent _ (hcc ▸ he)
  · have hnone := h.closed w' job' hw' hs'
    have hff : job'.fd = (s.conns c).fd := (hi.refs.job w' job' hw').2.1.symm.trans (hc ▸ hfd)
    exact absurd ((hff ▸ hnone).symm.trans (hi.kernel.current c hf.lt hf.isOpen)) (by simp)

theorem Own.frame (h : Own tr s)
    (hj : ∀ w job, s'.workers w = some job → job.stage = .closed → s.workers w = some job)
    (hf : ∀ fd, s.fds fd = none → s'.fds fd = none) (hcount : s'.count = s.count)
    (hfd : ∀ c, (s'.conns c).fd = (s.conns c).fd) (hl : s'.loop.fresh = s.loop.fresh)
    (he : ∀ fd c, s.connections fd = some (some c) → s'.connections fd = some (some c)) : Own (tr ++ [e]) s' where
  closed w job hw hs := hf _ (h.closed w job (hj w job hw hs) hs)
  apart w w' job job' hw hw' hs hs' := h.apart w w' job job' (hj w job hw hs) (hj w' job' hw' hs') hs hs'
  kept c hc hn := by
    have hk := (h.kept c (hcount ▸ hc) (hl ▸ hn)).append [e]
    unfold Kept at hk ⊢
    rw [hfd]
    exact hk.imp_left (he _ c)

theorem Own.accept (h : Own tr s) (hl : s.loop = .handling (.listener :: events))
    (hs : Spares s (.accept fd)) : Own (tr ++ [.accept fd])
      { s with conns := Function.update s.conns s.count { fd, isOpen := true }, count := s.count + 1,
               fds := Function.update s.fds fd (some s.count), loop := .accepted s.count events } where
  closed w job hw hc := (Function.update_of_ne (hs w job hw hc) ..).trans (h.closed w job hw hc)
  apart := h.apart
  kept c hc hn := by
    have hne : c ≠ s.count := fun hcc => hn (congrArg some hcc.symm)
    have hk := (h.kept c (Nat.lt_of_le_of_ne (Nat.le_of_lt_succ hc) hne) (by simp [hl, Loop.fresh])).append
      [.accept fd]
    unfold Kept at hk ⊢
    simpa only [Function.update_of_ne hne] using hk

theorem Own.insert (h : Own tr s) (hi : Inv s) (hl : s.loop = .added c events) : Own (tr ++ [.insert])
    { s.setEntry (s.conns c).fd (some (some c)) with loop := .handling events } where
  closed := h.closed
  apart  := h.apart
  kept c' hc _ := by
    have hf := (hi.loop_of hl).1
    by_cases hcc : c' = c
    case pos => exact .inl (by simp [hcc, World.setEntry])
    case neg =>
      have hk := (h.kept c' hc (by simp [hl, Loop.fresh, Ne.symm hcc])).append [.insert]
      refine hk.imp_left fun he => ?_
      have hne : (s.conns c').fd ≠ (s.conns c).fd := fun hff => h.fresh_ne hi hf (hff ▸ he)
      simpa [World.setEntry, Function.update_of_ne hne] using he

theorem Own.close (h : Own tr s) (hi : Inv s) (hw : s.workers w = some job) (hs : job.stage = .upgraded) :
    Own (tr ++ [.close w]) ((s.close job.conn).setStage w job .closed) := by
  have ⟨hlt, hf, ho⟩ := hi.refs.job w job hw
  have hcur : s.fds job.fd = some job.conn := hf ▸ hi.kernel.current _ hlt (ho (.inr hs))
  have hne {w' job'} (hw' : s.workers w' = some job') (hs' : job'.stage = .closed) : job'.fd ≠ job.fd := fun hff =>
    absurd ((hff ▸ h.closed w' job' hw' hs').symm.trans hcur) (by simp)
  constructor
  case closed =>
    intro w' job' hw' hs'
    rcases workers_of_setStage hw' with ⟨_, rfl⟩ | ⟨_, hw'⟩
    · simp [World.close, World.setStage, World.setJob, hf]
    · exact (Function.update_of_ne (hf ▸ hne hw' hs') ..).trans (h.closed w' job' hw' hs')
  case apart =>
    intro w₁ w₂ job₁ job₂ hw₁ hw₂ hs₁ hs₂ hff
    rcases workers_of_setStage hw₁ with ⟨rfl, rfl⟩ | ⟨_, hold₁⟩ <;>
      rcases workers_of_setStage hw₂ with ⟨rfl, rfl⟩ | ⟨_, hold₂⟩
    · rfl
    · exact absurd hff.symm (hne hold₂ hs₂)
    · exact absurd hff (hne hold₁ hs₁)
    · exact h.apart w₁ w₂ job₁ job₂ hold₁ hold₂ hs₁ hs₂ hff
  case kept =>
    intro c hc hn
    have hk := (h.kept c hc hn).append [.close w]
    unfold Kept at hk ⊢
    rw [show (((s.close job.conn).setStage w job .closed).conns c).fd = (s.conns c).fd from fd_close s job.conn c]
    exact hk

theorem Own.erase (h : Own tr s) (hi : Inv s) (hw : s.workers w = some job) (hl : job.stage ≠ .left) :
    Own (tr ++ [.erase w job.fd job.conn]) ((s.setEntry job.fd none).setStage w job .left) := by
  have hclosed {w' job'} (hw' : ((s.setEntry job.fd none).setStage w job .left).workers w' = some job')
      (hs' : job'.stage = .closed) : s.workers w' = some job' := by
    rcases workers_of_setStage hw' with ⟨_, rfl⟩ | ⟨_, hw'⟩
    · simp at hs'
    · exact hw'
  constructor
  case closed => exact fun w' job' hw' hs' => h.closed w' job' (hclosed hw' hs') hs'
  case apart =>
    exact fun w₁ w₂ job₁ job₂ hw₁ hw₂ hs₁ hs₂ => h.apart w₁ w₂ job₁ job₂ (hclosed hw₁ hs₁) (hclosed hw₂ hs₂) hs₁ hs₂
  case kept =>
    intro c hc hn
    rcases h.kept c hc hn with he | hk
    · by_cases hf : (s.conns c).fd = job.fd
      case pos =>
        have hcj := h.entry_eq hi hw hl (hf ▸ he)
        subst hcj
        exact .inr (.inl ⟨w, by simp [World.setStage, World.setJob, World.setEntry, hf]⟩)
      case neg => exact .inl ((Function.update_of_ne hf ..).trans he)
    · refine Kept.append ?_ _
      exact .inr hk

theorem Own.clear (h : Own tr s) : Own (tr ++ [.clear]) { s with connections := fun _ => none } where
  closed   := h.closed
  apart    := h.apart
  kept _ _ _ := .inr (.inr (by simp))

theorem Own.step (h : Own tr s) (hi : Inv s) (hs : SparingStep n s e s') : Own (tr ++ [e]) s' := by
  obtain ⟨hs, hsp⟩ := hs
  cases hs with
  | accept hl            => exact h.accept hl hsp
  | insert hl            => exact h.insert hi hl
  | close hw hstage      => exact h.close hi hw hstage
  | erase hw hl          => exact h.erase hi hw hl
  | clear                => exact h.clear
  | wait hl | refuse hl | remove hl | submit hl | skip hl | add hl =>
    exact h.frame (fun _ _ hw _ => hw) (fun _ => id) rfl (fun _ => rfl) (by rw [hl]; rfl) fun _ _ => id
  | again hl             =>
    exact h.frame (fun _ _ hw _ => hw) (fun _ => id) rfl (fun _ => rfl) (by rw [hl]; cases s.running <;> rfl) fun _ _ => id
  | lookup hl            =>
    exact h.frame (fun _ _ hw _ => hw) (fun _ => id) rfl (fun _ => rfl) (by rw [hl]; rfl) fun _ _ => connections_lookup.mpr
  | stop | unlisten      =>
    exact h.frame (fun _ _ hw _ => hw) (fun _ => id) rfl (fun _ => rfl) rfl fun _ _ => id
  | upgrade hw hstage    =>
    refine h.frame (fun w' job' hw' hs' => ?_) (fun _ => id) rfl (fun _ => rfl) rfl fun _ _ => id
    rcases workers_of_setStage hw' with ⟨_, rfl⟩ | ⟨_, hw'⟩
    · simp at hs'
    · exact hw'
  | rearm hw hstage      =>
    refine h.frame (fun w' job' hw' hs' => ?_) (fun _ => id) rfl (fun _ => rfl) rfl fun _ _ => id
    rcases workers_of_setStage hw' with ⟨_, rfl⟩ | ⟨_, hw'⟩
    · simp at hs'
    · exact hw'
  | take ht _ hw         =>
    refine h.frame (fun w' job' hw' hs' => ?_) (fun _ => id) rfl (fun _ => rfl) rfl fun _ _ => id
    rcases workers_of_setJob hw' with ⟨_, hj⟩ | ⟨_, hw'⟩
    · cases hj
      simp at hs'
    · exact hw'
  | finish hw hl         =>
    exact h.frame (fun w' job' hw' _ => (workers_of_setJob hw').elim (fun hn => absurd hn.2 (by simp)) And.right)
      (fun _ => id) rfl (fun _ => rfl) rfl fun _ _ => id
  | destroy hlt ho hh    =>
    refine h.frame (fun _ _ hw _ => hw) (fun fd hf => ?_) rfl (fd_close s _) rfl fun _ _ => id
    exact Option.eq_none_iff_forall_ne_some.mpr fun c' hc => by simp [(fds_of_close hc).2] at hf

theorem Own.of_run (h : Run (SparingStep n) .start tr s) : Own tr s :=
  h.history .start fun _ _ _ _ hr hs hi => hi.step (.of_run (hr.mono fun _ _ _ hs => hs.1)) hs

-- A handler removes only the entry of its own connection, and all other connections stay in the table.
theorem own_entries (h : Run (SparingStep n) .start tr s) :
    (∀ w fd c c' s', Step n s (.erase w fd c) s' → s.connections fd = some (some c') → c' = c) ∧
    ∀ c < s.count, s.loop.fresh ≠ some c → Kept tr s c := by
  have ho := Own.of_run h
  have hi := Inv.of_run (h.mono fun _ _ _ hs => hs.1)
  refine ⟨fun w fd c c' s' hs he => ?_, ho.kept⟩
  cases hs with
  | erase hw hl => exact ho.entry_eq hi hw hl he

section Witness

-- A connection that is served by a WebSocket handler, and closed by it.
def upgraded : List Act :=
  [.wait [.listener], .accept 5, .add, .insert, .again, .wait [.client 5], .remove, .lookup, .submit, .again,
    .take 0, .upgrade 0, .close 0]

theorem run_upgraded : ∃ s, Run (SparingStep 1) .start upgraded s ∧ s.loop = .waiting ∧ s.listening ∧
    s.fds 5 = none ∧ s.count = 1 ∧ s.workers 0 = some { fd := 5, conn := 0, stage := .closed } := by
  refine ⟨_, .cons ⟨.wait rfl (List.nodup_singleton _) (by simp), trivial⟩ (.cons ⟨.accept rfl rfl rfl, nofun⟩
    (.cons ⟨.add rfl, trivial⟩ (.cons ⟨.insert rfl, trivial⟩ (.cons ⟨.again rfl, trivial⟩
    (.cons ⟨.wait rfl (List.nodup_singleton _) ?_, trivial⟩ (.cons ⟨.remove rfl, trivial⟩ (.cons ⟨.lookup rfl, trivial⟩
    (.cons ⟨.submit rfl, trivial⟩ (.cons ⟨.again rfl, trivial⟩ (.cons ⟨.take rfl Nat.one_pos rfl, trivial⟩
    (.cons ⟨.upgrade rfl rfl, trivial⟩ (.single ⟨.close rfl rfl, trivial⟩)))))))))))), rfl, rfl, rfl, rfl, rfl⟩
  intro fd hm
  cases List.mem_singleton.mp hm
  rfl

theorem accept_next (n : Nat) (hl : s.loop = .waiting) (hli : s.listening) (hf : s.fds fd = none) :
    ∃ s', Run (Step n) s [.wait [.listener], .accept fd, .add, .insert] s' ∧ s'.workers = s.workers ∧
      s'.connections fd = some (some s.count) :=
  ⟨_, .cons (.wait hl (List.nodup_singleton _) (by simp))
    (.cons (.accept rfl hli hf) (.cons (.add rfl) (.single (.insert rfl)))), rfl, by simp [World.setEntry, World.add]⟩

-- The next connection gets the descriptor of the first one, whose handler then erases its entry.
theorem not_own_entries : ¬∀ n tr s w fd c c' s', Run (Step n) .start tr s → Step n s (.erase w fd c) s' →
    s.connections fd = some (some c') → c' = c := by
  intro h
  have ⟨s, hr, hl, hli, hf, hc, hw⟩ := run_upgraded
  have ⟨s', hr', hw', he⟩ := accept_next 1 hl hli hf
  have := h 1 _ s' 0 5 0 1 _ ((hr.mono fun _ _ _ hs => hs.1).append hr') (.erase (hw' ▸ hw) (by simp)) (hc ▸ he)
  contradiction

theorem own_entries_upgraded : ∃ s s', Run (SparingStep 1) .start upgraded s ∧ Step 1 s (.erase 0 5 0) s' ∧
    ∀ c', s.connections 5 = some (some c') → c' = 0 := by
  have ⟨s, hr, _, _, _, _, hw⟩ := run_upgraded
  have hs : Step 1 s (.erase 0 5 0) _ := .erase hw (by simp)
  exact ⟨s, _, hr, hs, fun c' => (own_entries hr).1 0 5 0 c' _ hs⟩

end Witness

end YNet.Workers
