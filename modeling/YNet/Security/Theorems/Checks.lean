import YNet.Security.Checks

namespace YNet.PathGuard

open Checks

variable {s s' : Checks} {tr : List Act} {ip path : Bytes} {k : Nat}

-- Everything but the blacklist.
def SameSettings (g g' : PathGuard) : Prop :=
  { g with blacklist := g'.blacklist } = g'

theorem SameSettings.refl (g : PathGuard) : SameSettings g g :=
  rfl

theorem SameSettings.whitelist_eq {g g' : PathGuard} (h : SameSettings g g') : g'.whitelist = g.whitelist := by
  rw [← h]

theorem SameSettings.forbids_eq {g g' : PathGuard} (h : SameSettings g g') :
    g'.forbids path = g.forbids path := by
  rw [← h]
  rfl

theorem SameSettings.block {g g' : PathGuard} (h : SameSettings g g') : SameSettings g (g'.block ip) := by
  rw [SameSettings, ← h]
  rfl

theorem Checks.Step.blacklist_subset (h : Step s e s') : s.guard.blacklist ⊆ s'.guard.blacklist := by
  cases h
  case configure c _ => cases c <;> exact Finset.Subset.refl _
  case insert        => exact Finset.subset_insert ..
  all_goals exact Finset.Subset.refl _

theorem blacklist_subset (h : Run Step s tr s') : s.guard.blacklist ⊆ s'.guard.blacklist :=
  h.monotone (R := fun a b => a.guard.blacklist ⊆ b.guard.blacklist) (fun _ => Finset.Subset.refl _)
    (fun _ _ _ => Finset.Subset.trans) fun _ _ _ => Step.blacklist_subset

-- While a check is running, the settings do not change.
theorem Checks.Step.sameSettings (h : Step s e s') (hk : (s.phase k).Running) :
    SameSettings s.guard s'.guard := by
  cases h
  case configure hn => exact absurd hk (hn k)
  case insert       => exact (SameSettings.refl _).block
  all_goals exact .refl _

-- The labels that belong to a check.
def Act.Of (k : Nat) : Act → Prop
  | .configure _                                             => False
  | .enter j _ _ | .lookup j _ | .insert j _ | .ret j _ _ => j = k

theorem Checks.Step.phase_eq (h : Step s e s') (hk : ¬e.Of k) : s'.phase k = s.phase k := by
  cases h
  case configure => rfl
  all_goals exact Function.update_of_ne (Ne.symm hk) ..

theorem Checks.Step.deterministic {s₁ s₂ : Checks} (h₁ : Step s e s₁) (h₂ : Step s e s₂) : s₁ = s₂ := by
  cases h₁ <;> cases h₂ <;> simp_all

theorem run_deterministic {s₁ s₂ : Checks} (h₁ : Run Step s tr s₁) (h₂ : Run Step s tr s₂) : s₁ = s₂ :=
  h₁.deterministic h₂ fun _ _ _ _ => Step.deterministic

theorem check_eq_forbids (guard : PathGuard) (req : Request) :
    guard.check req =
      if req.clientIp ∈ guard.whitelist then (false, guard)
      else if guard.isBlocked req.clientIp then (true, guard)
      else if guard.forbids req.path then (true, guard.block req.clientIp)
      else (false, guard) := by
  simp only [check, forbids, Bool.or_eq_true, decide_eq_true_eq]
  by_cases h₁ : req.path ∈ guard.exactPaths <;>
  by_cases h₂ : guard.prefixPaths.any (·.isPrefixOf req.path) = true <;>
  simp only [h₁, h₂, true_or, or_true, false_or, if_true, if_false, Bool.false_eq_true]

-- A check that runs alone.
theorem run_check (hk : s.phase k = .idle) (req : Request) :
    ∃ tr s', Run Step s (.enter k req.clientIp req.path :: (tr ++ [.ret k req.clientIp (s.guard.check req).1])) s' ∧
      s'.guard = (s.guard.check req).2 := by
  rw [check_eq_forbids]
  split_ifs with hw hb hf
  case pos => exact ⟨[], _, .cons (.trusted hk hw) (.single (.ret (Function.update_self ..))), rfl⟩
  case pos =>
    exact ⟨[.lookup k req.clientIp], _, .cons (.enter hk hw) <|
      .cons (.blocked (Function.update_self ..) hb) (.single (.ret (Function.update_self ..))), rfl⟩
  case pos =>
    exact ⟨[.lookup k req.clientIp, .insert k req.clientIp], _, .cons (.enter hk hw) <|
      .cons (.forbidden (Function.update_self ..) (Bool.eq_false_iff.mpr hb) hf) <|
      .cons (.insert (Function.update_self ..)) (.single (.ret (Function.update_self ..))), rfl⟩
  case neg =>
    exact ⟨[.lookup k req.clientIp], _, .cons (.enter hk hw) <|
      .cons (.allowed (Function.update_self ..) (Bool.eq_false_iff.mpr hb) (Bool.eq_false_iff.mpr hf))
        (.single (.ret (Function.update_self ..))), rfl⟩

section Settings

variable {guard : PathGuard} {c c' : Setting}

theorem has_configure : (guard.configure c').Has c ↔ guard.Has c ∨ c' = c := by
  cases c' <;> cases c <;> simp [configure, addExact, addPrefix, addExt, addWhitelist, Has, or_comm, eq_comm]

theorem has_block : (guard.block ip).Has c ↔ guard.Has c := by
  cases c <;> rfl

theorem forbids_iff : guard.forbids path = true ↔ ∃ c, guard.Has c ∧ c.Matches path := by
  simp only [forbids, Bool.or_eq_true, decide_eq_true_eq, List.any_eq_true, List.isPrefixOf_iff_prefix,
    List.isSuffixOf_iff_suffix]
  constructor
  · rintro ((h | ⟨p, hp, hm⟩) | ⟨ext, he, hm⟩)
    · exact ⟨.exactPath path, h, rfl⟩
    · exact ⟨.prefixPath p, hp, hm⟩
    · exact ⟨.ext ext, he, hm⟩
  · rintro ⟨c, hc, hm⟩
    cases c with
    | exactPath p  =>
      have hp : p ∈ guard.exactPaths := hc
      exact .inl (.inl ((show path = p from hm) ▸ hp))
    | prefixPath p => exact .inl (.inr ⟨p, hc, hm⟩)
    | ext e        => exact .inr ⟨e, hc, hm⟩
    | trusted ip   => contradiction

theorem Checks.Step.has_iff (h : Step s e s') : s'.guard.Has c ↔ s.guard.Has c ∨ e = .configure c := by
  cases h
  case configure => exact has_configure.trans (or_congr_right (by simp))
  case insert    => exact has_block.trans (by simp)
  all_goals simp

-- The settings are those of a new guard and those that have been made.
theorem has_iff (h : Run Step .start tr s) : s.guard.Has c ↔ ({} : PathGuard).Has c ∨ .configure c ∈ tr := by
  refine h.history (I := fun tr s => s.guard.Has c ↔ ({} : PathGuard).Has c ∨ .configure c ∈ tr) ?_
    fun tr s e s' _ hs hi => ?_
  · exact (or_iff_left List.not_mem_nil).symm
  · rw [hs.has_iff, hi, List.mem_append, List.mem_singleton, or_assoc]
    exact or_congr_right (or_congr_right eq_comm)

-- The path matches a pattern that is registered after these steps.
def Forbidden (tr : List Act) (path : Bytes) : Prop :=
  ∃ c : Setting, (({} : PathGuard).Has c ∨ .configure c ∈ tr) ∧ c.Matches path

def Trusted (tr : List Act) (ip : Bytes) : Prop :=
  .configure (.trusted ip) ∈ tr

theorem forbids_iff_forbidden (h : Run Step .start tr s) : s.guard.forbids path = true ↔ Forbidden tr path :=
  forbids_iff.trans (exists_congr fun _ => and_congr_left fun _ => has_iff h)

theorem mem_whitelist_iff (h : Run Step .start tr s) : ip ∈ s.guard.whitelist ↔ Trusted tr ip :=
  (has_iff (c := .trusted ip) h).trans (or_iff_right (Finset.notMem_empty ip))

end Settings

section Verdict

-- The client was in the blacklist when the check looked it up.
def SeenBlocked (s : Checks) (tr : List Act) (k : Nat) (ip : Bytes) : Prop :=
  ∃ tr₁ tr₂ m, tr = tr₁ ++ .lookup k ip :: tr₂ ∧ Run Step s tr₁ m ∧ ip ∈ m.guard.blacklist

def Denies (s m : Checks) (tr : List Act) (k : Nat) (ip path : Bytes) : Prop :=
  ip ∉ s.guard.whitelist ∧ (s.guard.forbids path = true ∨ SeenBlocked m tr k ip)

-- What a check has found so far that has been entered in the state `s`.
def Found (s m : Checks) (k : Nat) (ip path : Bytes) (tr : List Act) : Phase → Prop
  | .idle              => False
  | .entered ip' path' => ip' = ip ∧ path' = path ∧ ip ∉ s.guard.whitelist ∧ Act.lookup k ip ∉ tr
  | .inserting ip'     => ip' = ip ∧ ip ∉ s.guard.whitelist ∧ s.guard.forbids path = true
  | .returning ip' v   => ip' = ip ∧ (v = true ↔ Denies s m tr k ip path)
  | .returned _        => True

structure Entered (s m : Checks) (k : Nat) (ip path : Bytes) (tr : List Act) (m' : Checks) : Prop where
  settings : (m'.phase k).Running → SameSettings s.guard m'.guard
  found    : Found s m k ip path tr (m'.phase k)

theorem SeenBlocked.concat_iff (h : e ≠ .lookup k ip) :
    SeenBlocked s (tr ++ [e]) k ip ↔ SeenBlocked s tr k ip := by
  constructor
  · rintro ⟨tr₁, tr₂, m, ht, hr, hb⟩
    cases tr₂ using List.reverseRecOn
    case nil =>
      have ⟨_, he⟩ := List.append_inj' ht rfl
      exact absurd (List.singleton_inj.mp he) h
    case append_singleton tr₂ e' _ =>
      rw [← List.cons_append, ← List.append_assoc] at ht
      exact ⟨tr₁, tr₂, m, (List.append_inj' ht rfl).1, hr, hb⟩
  · rintro ⟨tr₁, tr₂, m, rfl, hr, hb⟩
    exact ⟨tr₁, tr₂ ++ [e], m, by simp, hr, hb⟩

theorem SeenBlocked.concat_lookup (hn : Act.lookup k ip ∉ tr) (hr : Run Step s tr m) :
    SeenBlocked s (tr ++ [.lookup k ip]) k ip ↔ ip ∈ m.guard.blacklist := by
  constructor
  · rintro ⟨tr₁, tr₂, m', ht, hr', hb⟩
    cases tr₂ using List.reverseRecOn
    case nil =>
      have ⟨he, _⟩ := List.append_inj' ht rfl
      cases he
      exact run_deterministic hr' hr ▸ hb
    case append_singleton tr₂ e' _ =>
      rw [← List.cons_append, ← List.append_assoc] at ht
      have := (List.append_inj' ht rfl).1
      simp [this] at hn
  · exact fun hb => ⟨tr, [], m, rfl, hr, hb⟩

theorem Denies.concat_iff {m : Checks} (h : e ≠ .lookup k ip) :
    Denies s m (tr ++ [e]) k ip path ↔ Denies s m tr k ip path := by
  rw [Denies, SeenBlocked.concat_iff h, Denies]

theorem Entered.of_step {m : Checks} (h : Step s (.enter k ip path) m) : Entered s m k ip path [] m := by
  cases h
  case trusted _ hw =>
    refine ⟨fun _ => .refl _, ?_⟩
    simp only [Function.update_self, Found]
    exact ⟨trivial, by simp [Denies, hw]⟩
  case enter _ hw =>
    refine ⟨fun _ => .refl _, ?_⟩
    simp only [Function.update_self, Found]
    exact ⟨trivial, trivial, hw, List.not_mem_nil⟩

-- A step of something else.
theorem Entered.step_other {m m' m'' : Checks} (h : Entered s m k ip path tr m') (hs : Step m' e m'')
    (hk : ¬e.Of k) : Entered s m k ip path (tr ++ [e]) m'' := by
  have hp := hs.phase_eq hk
  have hl : e ≠ .lookup k ip := fun he => hk (he ▸ rfl)
  refine ⟨fun hr => ?_, ?_⟩
  case refine_1 =>
    rw [hp] at hr
    have h₁ := h.settings hr
    have h₂ := hs.sameSettings hr
    rw [SameSettings, ← h₂, ← h₁]
  case refine_2 =>
    have hf := h.found
    rw [hp]
    cases hm : m'.phase k with
    | idle            => rwa [hm] at hf
    | entered ip' p'  =>
      rw [hm] at hf
      exact ⟨hf.1, hf.2.1, hf.2.2.1, by simpa [hf.2.2.2] using Ne.symm hl⟩
    | inserting ip'   => rwa [hm] at hf
    | returning ip' v =>
      rw [hm] at hf
      exact ⟨hf.1, hf.2.trans (Denies.concat_iff hl).symm⟩
    | returned ip'    => trivial

theorem Entered.step {m m' m'' : Checks} (h : Entered s m k ip path tr m') (hr : Run Step m tr m')
    (hs : Step m' e m'') : Entered s m k ip path (tr ++ [e]) m'' := by
  by_cases hk : e.Of k
  case neg => exact h.step_other hs hk
  case pos =>
    have ⟨hset, hf⟩ := h
    cases hs
    case configure => contradiction
    case trusted hp _ => cases hk; rw [hp] at hf; contradiction
    case enter hp _ => cases hk; rw [hp] at hf; contradiction
    case blocked hp hb =>
      cases hk
      rw [hp] at hset hf
      obtain ⟨rfl, rfl, hw, hn⟩ := hf
      refine ⟨fun _ => hset trivial, ?_⟩
      simp only [Function.update_self, Found]
      refine ⟨trivial, iff_of_true trivial ⟨hw, .inr ((SeenBlocked.concat_lookup hn hr).mpr ?_)⟩⟩
      simpa [isBlocked] using hb
    case forbidden hp _ hforbid =>
      cases hk
      rw [hp] at hset hf
      obtain ⟨rfl, rfl, hw, hn⟩ := hf
      have hset := hset trivial
      refine ⟨fun _ => hset, ?_⟩
      simp only [Function.update_self, Found]
      exact ⟨trivial, hw, hset.forbids_eq ▸ hforbid⟩
    case allowed hp hb hforbid =>
      cases hk
      rw [hp] at hset hf
      obtain ⟨rfl, rfl, hw, hn⟩ := hf
      have hset := hset trivial
      refine ⟨fun _ => hset, ?_⟩
      simp only [Function.update_self, Found]
      refine ⟨trivial, iff_of_false Bool.false_ne_true fun hd => ?_⟩
      cases hd.2
      case inl hd => exact absurd (hforbid.symm.trans (hset.forbids_eq.trans hd)) Bool.false_ne_true
      case inr hd => simp [isBlocked, (SeenBlocked.concat_lookup hn hr).mp hd] at hb
    case insert hp =>
      cases hk
      rw [hp] at hset hf
      obtain ⟨rfl, hw, hforbid⟩ := hf
      refine ⟨fun _ => (hset trivial).block, ?_⟩
      simp only [Function.update_self, Found]
      exact ⟨trivial, iff_of_true trivial ⟨hw, .inl hforbid⟩⟩
    case ret hp =>
      cases hk
      refine ⟨fun hn => ?_, ?_⟩
      · simp only [Function.update_self, Phase.Running] at hn
      · simp only [Function.update_self, Found]

theorem Entered.of_run {m : Checks} (h : Step s (.enter k ip path) m) (hr : Run Step m tr s') :
    Entered s m k ip path tr s' :=
  hr.history (I := Entered s m k ip path) (.of_step h) fun _ _ _ _ hr hs hi => hi.step hr hs

end Verdict

section Blacklist

theorem mem_blacklist_of_insert (h : Run Step s tr s') (hm : Act.insert k ip ∈ tr) :
    ip ∈ s'.guard.blacklist := by
  have ⟨_, _, ht⟩ := List.append_of_mem hm
  rw [ht] at h
  have ⟨_, _, _, hs, h⟩ := Run.mid_iff.mp h
  cases hs
  case insert => exact blacklist_subset h (Finset.mem_insert_self ..)

theorem Checks.Step.mem_blacklist (h : Step s e s') (hm : ip ∈ s'.guard.blacklist) :
    ip ∈ s.guard.blacklist ∨ ∃ k, e = .insert k ip ∧ s.phase k = .inserting ip := by
  cases h
  case configure c _ => cases c <;> exact .inl hm
  case insert hp     =>
    cases Finset.mem_insert.mp hm
    case inl he => subst he; exact .inr ⟨_, rfl, hp⟩
    case inr hm => exact .inl hm
  all_goals exact .inl hm

theorem exists_enter (h : Run Step .start tr s) (hk : s.phase k ≠ .idle) :
    ∃ ip path tr₁ tr₂, tr = tr₁ ++ .enter k ip path :: tr₂ := by
  refine h.history (I := fun tr s => s.phase k ≠ .idle → ∃ ip path tr₁ tr₂, tr = tr₁ ++ .enter k ip path :: tr₂)
    (absurd rfl) (fun tr s e s' _ hs hi hk => ?_) hk
  by_cases hp : s.phase k = .idle
  case neg =>
    have ⟨ip, path, tr₁, tr₂, ht⟩ := hi hp
    exact ⟨ip, path, tr₁, tr₂ ++ [e], by simp [ht]⟩
  case pos =>
    have he : e.Of k := by
      by_contra he
      exact hk (hs.phase_eq he ▸ hp)
    cases hs
    case configure => contradiction
    case trusted   => cases he; exact ⟨_, _, tr, [], rfl⟩
    case enter     => cases he; exact ⟨_, _, tr, [], rfl⟩
    all_goals
      cases he
      have := ‹s.phase k = _›
      simp_all

-- A check that is in front of its insertion has been entered by a client that is not trusted, with a
-- path that was forbidden then.
theorem exists_forbidden (h : Run Step .start tr s) (hk : s.phase k = .inserting ip) :
    ∃ path tr₁ tr₂ m, tr = tr₁ ++ .enter k ip path :: tr₂ ∧ Run Step .start tr₁ m ∧
      ip ∉ m.guard.whitelist ∧ m.guard.forbids path = true := by
  have hn : s.phase k ≠ .idle := by simp [hk]
  have ⟨ip', path, tr₁, tr₂, ht⟩ := exists_enter h hn
  rw [ht] at h
  have ⟨m, m', h₁, hs, h₂⟩ := Run.mid_iff.mp h
  have hf := (Entered.of_run hs h₂).found
  rw [hk] at hf
  obtain ⟨rfl, hw, hf⟩ := hf
  exact ⟨path, tr₁, tr₂, m, ht, h₁, hw, hf⟩

-- Some check saw a path of the client that was forbidden then, and has reached its insertion.
def Inserted (tr : List Act) (ip : Bytes) : Prop :=
  ∃ k path tr₁ tr₂, tr = tr₁ ++ .enter k ip path :: tr₂ ∧ ¬Trusted tr₁ ip ∧ Forbidden tr₁ path ∧ .insert k ip ∈ tr₂

theorem mem_blacklist_iff (h : Run Step .start tr s) : ip ∈ s.guard.blacklist ↔ Inserted tr ip := by
  constructor
  case mpr =>
    rintro ⟨k, path, tr₁, tr₂, rfl, _, _, hm⟩
    exact mem_blacklist_of_insert (k := k) h (by simp [hm])
  case mp =>
    refine h.history (I := fun tr s => ip ∈ s.guard.blacklist → Inserted tr ip) (fun hm => ?_)
      fun tr s e s' h hs hi hm => ?_
    · contradiction
    · rcases hs.mem_blacklist hm with hm | ⟨k, rfl, hk⟩
      · have ⟨k, path, tr₁, tr₂, ht, hw, hf, hm⟩ := hi hm
        exact ⟨k, path, tr₁, tr₂ ++ [e], by simp [ht], hw, hf, by simp [hm]⟩
      · have ⟨path, tr₁, tr₂, m, ht, hr, hw, hf⟩ := exists_forbidden h hk
        exact ⟨k, path, tr₁, tr₂ ++ [.insert k ip], by simp [ht], (mem_whitelist_iff hr).not.mp hw,
          (forbids_iff_forbidden hr).mp hf, by simp⟩

end Blacklist

section Verdicts

variable {m m' : Checks} {v : Bool}

theorem verdict_iff (hs : Step s (.enter k ip path) m) (hr : Run Step m tr m')
    (ht : Step m' (.ret k ip v) s') : v = true ↔ Denies s m tr k ip path := by
  have hf := (Entered.of_run hs hr).found
  cases ht
  case ret hp =>
    rw [hp] at hf
    exact hf.2

theorem lookup_mem (hr : Run Step m tr m') (hk : m.phase k = .entered ip path)
    (hn : m'.phase k ≠ .entered ip path) : ∃ tr₁ tr₂ a, tr = tr₁ ++ .lookup k ip :: tr₂ ∧ Run Step m tr₁ a := by
  induction hr
  case nil => contradiction
  case cons e _ tr _ hs _ hi =>
    by_cases he : e.Of k
    case neg =>
      have ⟨tr₁, tr₂, a, ht, hr⟩ := hi (hs.phase_eq he ▸ hk) hn
      exact ⟨e :: tr₁, tr₂, a, by simp [ht], .cons hs hr⟩
    case pos =>
      refine ⟨[], tr, _, ?_, .nil⟩
      cases hs
      case configure => contradiction
      all_goals
        cases he
        have := ‹Checks.phase _ k = _›
        simp_all

-- A check of a client that is in the blacklist already.
theorem verdict_of_mem_blacklist (hb : ip ∈ s.guard.blacklist) (hs : Step s (.enter k ip path) m)
    (hr : Run Step m tr m') (ht : Step m' (.ret k ip v) s') : v = true ∨ ip ∈ s.guard.whitelist := by
  refine or_iff_not_imp_right.mpr fun hw => (verdict_iff hs hr ht).mpr ⟨hw, .inr ?_⟩
  have hk : m.phase k = .entered ip path := by
    cases hs
    case trusted => contradiction
    case enter   => exact Function.update_self ..
  have hn : m'.phase k ≠ .entered ip path := by
    cases ht
    case ret hp => simp [hp]
  have ⟨tr₁, tr₂, a, ht, hr⟩ := lookup_mem hr hk hn
  exact ⟨tr₁, tr₂, a, ht, hr, blacklist_subset hr (hs.blacklist_subset hb)⟩

end Verdicts

section Clients

-- The steps that concern a client: its own checks and the settings.
def Act.concerns (ip : Bytes) : Act → Bool
  | .configure _                                                    => true
  | .enter _ ip' _ | .lookup _ ip' | .insert _ ip' | .ret _ ip' _ => ip' = ip

def Phase.Of (ip : Bytes) : Phase → Prop
  | .idle                                                               => False
  | .entered ip' _ | .inserting ip' | .returning ip' _ | .returned ip' => ip' = ip

-- The second system has only seen the checks of one client.
structure Restricts (ip : Bytes) (s t : Checks) : Prop where
  settings  : SameSettings s.guard t.guard
  blacklist : ip ∈ s.guard.blacklist ↔ ip ∈ t.guard.blacklist
  own       : ∀ k, (s.phase k).Of ip → t.phase k = s.phase k
  other     : ∀ k, ¬(s.phase k).Of ip → t.phase k = .idle

theorem Restricts.phase_idle {t : Checks} (h : Restricts ip s t) (hp : s.phase k = .idle) : t.phase k = .idle :=
  h.other k (by simp [hp, Phase.Of])

theorem Restricts.phase_own {t : Checks} (h : Restricts ip s t) (hp : s.phase k = p) (ho : p.Of ip) :
    t.phase k = p :=
  (h.own k (hp ▸ ho)).trans hp

theorem Restricts.running {t : Checks} (h : Restricts ip s t) (hr : (t.phase k).Running) : (s.phase k).Running := by
  by_cases hk : (s.phase k).Of ip
  case pos => exact h.own k hk ▸ hr
  case neg => simp [h.other k hk, Phase.Running] at hr

-- A step of the check changes both systems in the same way.
theorem Restricts.update {t : Checks} (h : Restricts ip s t) (hg : SameSettings g g')
    (hb : ip ∈ g.blacklist ↔ ip ∈ g'.blacklist) (hp : p.Of ip) :
    Restricts ip ⟨g, Function.update s.phase k p⟩ ⟨g', Function.update t.phase k p⟩ where
  settings  := hg
  blacklist := hb
  own j hj := by
    by_cases he : j = k
    case pos => simp [he]
    case neg =>
      simp only [Function.update_of_ne he] at hj ⊢
      exact h.own j hj
  other j hj := by
    by_cases he : j = k
    case pos => simp [he, hp] at hj
    case neg =>
      simp only [Function.update_of_ne he] at hj ⊢
      exact h.other j hj

-- A step of a check of another client is not seen.
theorem Restricts.skip {t : Checks} (h : Restricts ip s t) (hg : SameSettings g t.guard)
    (hb : ip ∈ g.blacklist ↔ ip ∈ t.guard.blacklist) (hk : ¬(s.phase k).Of ip) (hp : ¬p.Of ip) :
    Restricts ip ⟨g, Function.update s.phase k p⟩ t where
  settings  := hg
  blacklist := hb
  own j hj := by
    by_cases he : j = k
    case pos => simp [he, hp] at hj
    case neg =>
      simp only [Function.update_of_ne he] at hj ⊢
      exact h.own j hj
  other j hj := by
    by_cases he : j = k
    case pos => exact he ▸ h.other k hk
    case neg =>
      simp only [Function.update_of_ne he] at hj
      exact h.other j hj

theorem SameSettings.configure {g g' : PathGuard} (h : SameSettings g g') :
    SameSettings (g.configure c) (g'.configure c) := by
  rw [SameSettings, ← h]
  cases c <;> rfl

theorem configure_blacklist {g : PathGuard} : (g.configure c).blacklist = g.blacklist := by
  cases c <;> rfl

theorem Restricts.isBlocked {t : Checks} (h : Restricts ip s t) :
    t.guard.isBlocked ip = s.guard.isBlocked ip := by
  simp [PathGuard.isBlocked, h.blacklist]

theorem Restricts.step_own {t : Checks} (h : Restricts ip s t) (hs : Step s e s') (he : e.concerns ip = true) :
    ∃ t', Step t e t' ∧ Restricts ip s' t' := by
  have hg := h.settings
  cases hs
  case configure hn =>
    refine ⟨_, .configure fun k hr => hn k (h.running hr), hg.configure, ?_, h.own, h.other⟩
    simpa only [configure_blacklist] using h.blacklist
  all_goals
    simp only [Act.concerns, decide_eq_true_eq] at he
    subst he
  case trusted hp hw =>
    exact ⟨_, .trusted (h.phase_idle hp) (hg.whitelist_eq ▸ hw), h.update hg h.blacklist rfl⟩
  case enter hp hw =>
    exact ⟨_, .enter (h.phase_idle hp) (hg.whitelist_eq ▸ hw), h.update hg h.blacklist rfl⟩
  case blocked hp hb =>
    exact ⟨_, .blocked (h.phase_own hp rfl) (h.isBlocked.trans hb), h.update hg h.blacklist rfl⟩
  case forbidden hp hb hf =>
    exact ⟨_, .forbidden (h.phase_own hp rfl) (h.isBlocked.trans hb) (hg.forbids_eq.trans hf), h.update hg h.blacklist rfl⟩
  case allowed hp hb hf =>
    exact ⟨_, .allowed (h.phase_own hp rfl) (h.isBlocked.trans hb) (hg.forbids_eq.trans hf), h.update hg h.blacklist rfl⟩
  case insert hp =>
    refine ⟨_, .insert (h.phase_own hp rfl), h.update ?_ ?_ rfl⟩
    · rw [SameSettings, ← hg]
      rfl
    · simp [block]
  case ret hp =>
    exact ⟨_, .ret (h.phase_own hp rfl), h.update hg h.blacklist rfl⟩

theorem Restricts.step_other {t : Checks} (h : Restricts ip s t) (hs : Step s e s')
    (he : e.concerns ip = false) : Restricts ip s' t := by
  have hg := h.settings
  cases hs
  case configure => contradiction
  all_goals simp only [Act.concerns, decide_eq_false_iff_not] at he
  case insert hp =>
    refine h.skip hg ?_ (by simpa [hp, Phase.Of] using he) he
    rw [← h.blacklist, block, Finset.mem_insert]
    exact or_iff_right (Ne.symm he)
  all_goals
    have := ‹s.phase _ = _›
    exact h.skip hg h.blacklist (by simp_all [Phase.Of]) he

-- The checks of the other clients can be left out of a run.
theorem restrict (h : Run Step .start tr s) (ip : Bytes) :
    ∃ t, Run Step .start (tr.filter (·.concerns ip)) t ∧ Restricts ip s t := by
  refine h.history (I := fun tr s => ∃ t, Run Step .start (tr.filter (·.concerns ip)) t ∧ Restricts ip s t)
    ⟨.start, .nil, .refl _, .rfl, fun _ _ => rfl, fun _ _ => rfl⟩ fun tr s e s' _ hs ⟨t, hr, ht⟩ => ?_
  rw [List.filter_append]
  cases he : e.concerns ip
  case false =>
    exact ⟨t, by simpa [he] using hr, ht.step_other hs he⟩
  case true =>
    have ⟨t', hs', ht'⟩ := ht.step_own hs he
    exact ⟨t', by simpa [he] using hr.append (.single hs'), ht'⟩

end Clients

-- The guard over a whole run. Its settings are those of a new guard and those that have been made. The blacklist
-- is the set of the clients that some check has inserted, and it never shrinks. What a check returns depends on
-- its path, on the settings and on the blacklist at its lookup. A client that is in the blacklist stays blocked,
-- and the other clients do not matter.
theorem checks_history (h : Run Step .start tr s) :
    (∀ path, s.guard.forbids path = true ↔ Forbidden tr path) ∧ (∀ ip, ip ∈ s.guard.whitelist ↔ Trusted tr ip) ∧
    (∀ ip, ip ∈ s.guard.blacklist ↔ Inserted tr ip) ∧
    (∀ tr' s', Run Step s tr' s' → s.guard.blacklist ⊆ s'.guard.blacklist) ∧
    (∀ k ip path v m tr' m' s', Step s (.enter k ip path) m → Run Step m tr' m' → Step m' (.ret k ip v) s' →
      (v = true ↔ ¬Trusted tr ip ∧ (Forbidden tr path ∨ SeenBlocked m tr' k ip)) ∧
      (∀ j, Act.insert j ip ∈ tr → v = true ∨ Trusted tr ip)) ∧
    ∀ ip, ∃ t, Run Step .start (tr.filter (·.concerns ip)) t ∧
      (ip ∈ t.guard.blacklist ↔ ip ∈ s.guard.blacklist) := by
  refine ⟨fun _ => forbids_iff_forbidden h, fun _ => mem_whitelist_iff h, fun _ => mem_blacklist_iff h,
    fun _ _ => blacklist_subset, fun k ip path v m tr' m' s' hs hr ht => ⟨?_, fun j hj => ?_⟩, fun ip => ?_⟩
  · rw [verdict_iff hs hr ht, Denies, forbids_iff_forbidden h, mem_whitelist_iff h]
  · rw [← mem_whitelist_iff h]
    exact verdict_of_mem_blacklist (mem_blacklist_of_insert h hj) hs hr ht
  · have ⟨t, hr, ht⟩ := restrict h ip
    exact ⟨t, hr, ht.blacklist.symm⟩

-- Patterns and a trusted client are added. Then a client asks for a forbidden path, while another check of it is
-- running, and the trusted one asks for a forbidden path as well.
def probes : List Act :=
  [.configure (.exactPath "/admin"), .configure (.prefixPath "/old"), .configure (.ext ".cgi"),
    .configure (.trusted "10.0.0.1"), .enter 0 "9.9.9.9" "/a.cgi", .enter 1 "9.9.9.9" "/", .lookup 1 "9.9.9.9",
    .lookup 0 "9.9.9.9", .ret 1 "9.9.9.9" false, .insert 0 "9.9.9.9", .ret 0 "9.9.9.9" true,
    .enter 2 "10.0.0.1" "/admin", .ret 2 "10.0.0.1" false]

theorem run_probes : ∃ s, Run Step .start probes s ∧ ("9.9.9.9" : Bytes) ∈ s.guard.blacklist ∧
    ("10.0.0.1" : Bytes) ∉ s.guard.blacklist ∧ s.guard.forbids "/b.cgi" = true ∧ s.guard.forbids "/new" ≠ true := by
  have hn (k : Nat) : ¬(Checks.start.phase k).Running := id
  refine ⟨_, .cons (.configure hn) <| .cons (.configure hn) <| .cons (.configure hn) <| .cons (.configure hn) <|
    .cons (.enter rfl (by decide)) <| .cons (.enter rfl (by decide)) <|
    .cons (.allowed rfl (by decide) (by decide +kernel)) <| .cons (.forbidden rfl (by decide) (by decide +kernel)) <|
    .cons (.ret rfl) <| .cons (.insert rfl) <| .cons (.ret rfl) <| .cons (.trusted rfl (by decide)) <|
    .single (.ret rfl), Finset.mem_insert_self .., ?_, ?_, ?_⟩
  · decide
  · decide +kernel
  · decide +kernel

theorem checks_history_probes : Inserted probes "9.9.9.9" ∧ ¬Inserted probes "10.0.0.1" ∧
    Forbidden probes "/b.cgi" ∧ ¬Forbidden probes "/new" := by
  have ⟨s, h, hm, hn, hcgi, hnew⟩ := run_probes
  have ⟨hf, _, hb, _⟩ := checks_history h
  exact ⟨(hb _).mp hm, (hb _).not.mp hn, (hf _).mp hcgi, (hf _).not.mp hnew⟩

end YNet.PathGuard
