import YNet.Security.SessionRun

namespace YNet

namespace Sessions

variable {sessions : Sessions} {ttl now : Int}

-- The section under the shared lock finds a session that has not expired, and refreshes it.
theorem find_eq_some (h : sessions.find ttl now sid = (some ref, sessions')) :
    ∃ c, sid = some c ∧ sessions.storage c = some ref ∧ now < (sessions.objects ref).expiresAt ∧
      sessions' = sessions.modify ref ({ · with expiresAt := now + ttl }) := by
  unfold find at h
  split at h
  case h_1 => simp at h
  case h_2 c =>
    split at h
    case h_1 => simp at h
    case h_2 hs =>
      split at h
      case isFalse => simp at h
      case isTrue he =>
        cases h
        exact ⟨c, rfl, hs, he, rfl⟩

theorem find_eq_none (h : sessions.find ttl now sid = (none, sessions')) :
    sessions' = sessions ∧ ∀ c ref, sid = some c → sessions.storage c = some ref →
      (sessions.objects ref).expiresAt ≤ now := by
  unfold find at h
  split at h
  case h_1 => exact ⟨(Prod.mk.inj h).2.symm, nofun⟩
  case h_2 c =>
    split at h
    case h_1 hs =>
      refine ⟨(Prod.mk.inj h).2.symm, fun c' ref hc hs' => ?_⟩
      cases hc
      exact absurd (hs.symm.trans hs') (by simp)
    case h_2 hs =>
      split at h
      case isTrue => simp at h
      case isFalse he =>
        refine ⟨(Prod.mk.inj h).2.symm, fun c' ref hc hs' => ?_⟩
        cases hc
        cases hs.symm.trans hs'
        exact not_lt.mp he

theorem find_of_live (hs : sessions.storage c = some ref) (h : now < (sessions.objects ref).expiresAt) :
    sessions.find ttl now (some c) = (some ref, sessions.modify ref ({ · with expiresAt := now + ttl })) := by
  simp only [find, hs, gt_iff_lt, h, if_true]

theorem find_of_expired (h : ∀ c ref, sid = some c → sessions.storage c = some ref →
    (sessions.objects ref).expiresAt ≤ now) : sessions.find ttl now sid = (none, sessions) := by
  unfold find
  split
  case h_1 => rfl
  case h_2 c =>
    split
    case h_1 => rfl
    case h_2 ref hs => exact if_neg (not_lt.mpr (h c ref rfl hs))

theorem renew_eq {id : Bytes} (h : sessions.renew ttl now sid id = (ref, sessions')) :
    ref = sessions.count ∧ sessions'.count = sessions.count + 1 ∧
    sessions'.objects = Function.update sessions.objects sessions.count { expiresAt := now + ttl, id } ∧
    sessions'.storage id = some sessions.count ∧
    ∀ c ≠ id, sessions'.storage c = if sid = some c then none else sessions.storage c := by
  cases sid with
  | none =>
    cases h
    exact ⟨rfl, rfl, rfl, Function.update_self .., fun c hc => Function.update_of_ne hc ..⟩
  | some old =>
    cases h
    refine ⟨rfl, rfl, rfl, Function.update_self .., fun c hc => (Function.update_of_ne hc ..).trans ?_⟩
    by_cases ho : c = old
    case pos => simp [ho, erase]
    case neg => simp [erase, ho, Ne.symm ho]

-- The section under the exclusive lock changes the objects no matter what is in the table.
theorem renew_withStorage {id : Bytes} (h : sessions.renew ttl now sid id = (ref, sessions')) (st : Bytes → Option Nat) :
    ∃ st', ({ sessions with storage := st } : Sessions).renew ttl now sid id = (ref, { sessions' with storage := st' }) := by
  cases sid <;> cases h <;> exact ⟨_, rfl⟩

theorem cleanup_storage : (sessions.cleanup now).storage c = some ref ↔
    sessions.storage c = some ref ∧ now < (sessions.objects ref).expiresAt := by
  simp [cleanup, Option.filter_eq_some_iff]

end Sessions

namespace Session

variable {o : Options} {tr : List Act} {s s' : World} {c : Bytes}

-- The time of a section in which a session with the id is created or successfully looked up.
def useOf (c : Bytes) : Act → Option Int
  | .lookup _ (some c') now (some _) => if c' = c then some now else none
  | .create _ c' now _               => if c' = c then some now else none
  | _                                => none

def lastUse (tr : List Act) (c : Bytes) : Option Int :=
  Run.last (useOf c) tr

def Issued (tr : List Act) (c : Bytes) : Prop :=
  ∃ k now ref, .create k c now ref ∈ tr

def Presented (tr : List Act) (c : Bytes) : Prop :=
  ∃ k now found, .lookup k (some c) now found ∈ tr

-- The random numbers are new: none of them is an id that has been issued or presented before.
def Fresh (tr : List Act) : Prop :=
  ∀ tr₁ tr₂ k id now ref, tr = tr₁ ++ .create k id now ref :: tr₂ → ¬Issued tr₁ id ∧ ¬Presented tr₁ id

theorem lastUse_concat : lastUse (tr ++ [e]) c = (useOf c e).or (lastUse tr c) :=
  Run.last_concat

theorem Issued.append (h : Issued tr c) : Issued (tr ++ tr') c := by
  have ⟨k, now, ref, hm⟩ := h
  exact ⟨k, now, ref, List.mem_append_left _ hm⟩

theorem Presented.append (h : Presented tr c) : Presented (tr ++ tr') c := by
  have ⟨k, now, found, hm⟩ := h
  exact ⟨k, now, found, List.mem_append_left _ hm⟩

theorem presented_of_lookup (h : sid = some c) : Presented (tr ++ [.lookup k sid now found]) c :=
  ⟨k, now, found, by simp [h]⟩

theorem Fresh.of_append (h : Fresh (tr ++ tr')) : Fresh tr :=
  fun tr₁ tr₂ k id now ref ht => h tr₁ (tr₂ ++ tr') k id now ref (by simp [ht])

theorem Fresh.concat {id : Bytes} (h : Fresh (tr ++ [.create k id now ref])) : ¬Issued tr id ∧ ¬Presented tr id :=
  h tr [] k id now ref rfl

-- What holds in all reachable states, in terms of the labels so far.
structure Inv (o : Options) (tr : List Act) (s : World) : Prop where
  storage : ∀ c ref, s.sessions.storage c = some ref → ref < s.sessions.count ∧
    (s.sessions.objects ref).id = c ∧ ∃ t, lastUse tr c = some t ∧ (s.sessions.objects ref).expiresAt = t + o.ttl
  live    : ∀ c t, lastUse tr c = some t → s.now < t + o.ttl → ∃ ref, s.sessions.storage c = some ref
  issued  : ∀ c t, lastUse tr c = some t → Issued tr c
  created : ∀ ref < s.sessions.count, ∃ k now, .create k (s.sessions.objects ref).id now ref ∈ tr
  missed  : ∀ k req c, s.phase k = .missed req (some c) →
    Presented tr c ∧ ∀ t, lastUse tr c = some t → t + o.ttl ≤ s.now

theorem Inv.start : Inv o [] (.start now) where
  storage := nofun
  live    := nofun
  issued  := nofun
  created := nofun
  missed  := nofun

theorem Inv.expiresAt (h : Inv o tr s) (hs : s.sessions.storage c = some ref) (hl : lastUse tr c = some t) :
    (s.sessions.objects ref).expiresAt = t + o.ttl := by
  have ⟨_, _, t', ht, he⟩ := h.storage c ref hs
  cases hl.symm.trans ht
  exact he

theorem Inv.storage_inj (h : Inv o tr s) (hc : s.sessions.storage c = some ref)
    (hc' : s.sessions.storage c' = some ref) : c = c' :=
  (h.storage c ref hc).2.1.symm.trans (h.storage c' ref hc').2.1

-- A step that neither creates nor refreshes a session. Only sessions that have expired can get lost.
theorem Inv.frame (h : Inv o tr s) (hu : ∀ c, useOf c e = none) (hn : s.now ≤ s'.now)
    (hc : s'.sessions.count = s.sessions.count)
    (ho : ∀ ref, (s'.sessions.objects ref).id = (s.sessions.objects ref).id ∧
      (s'.sessions.objects ref).expiresAt = (s.sessions.objects ref).expiresAt)
    (hs : ∀ c ref, s'.sessions.storage c = some ref → s.sessions.storage c = some ref)
    (hl : ∀ c ref, s.sessions.storage c = some ref → s'.now < (s.sessions.objects ref).expiresAt →
      s'.sessions.storage c = some ref)
    (hm : ∀ k req c, s'.phase k = .missed req (some c) → s.phase k = .missed req (some c) ∨
      (Presented (tr ++ [e]) c ∧ ∀ ref, s.sessions.storage c = some ref →
        (s.sessions.objects ref).expiresAt ≤ s'.now)) :
    Inv o (tr ++ [e]) s' := by
  have hlast c : lastUse (tr ++ [e]) c = lastUse tr c := by simp [lastUse_concat, hu]
  have hlive c t (ht : lastUse tr c = some t) (hlt : s'.now < t + o.ttl) :
      ∃ ref, s.sessions.storage c = some ref ∧ s'.now < (s.sessions.objects ref).expiresAt := by
    have ⟨ref, hr⟩ := h.live c t ht (hn.trans_lt hlt)
    exact ⟨ref, hr, h.expiresAt hr ht ▸ hlt⟩
  constructor
  case storage =>
    intro c ref hr
    rw [hc, (ho ref).1, (ho ref).2, hlast]
    exact h.storage c ref (hs c ref hr)
  case live =>
    intro c t ht hlt
    have ⟨ref, hr, hlt⟩ := hlive c t (hlast c ▸ ht) hlt
    exact ⟨ref, hl c ref hr hlt⟩
  case issued =>
    intro c t ht
    exact (h.issued c t (hlast c ▸ ht)).append
  case created =>
    intro ref hr
    have ⟨k, now, hm⟩ := h.created ref (hc ▸ hr)
    exact ⟨k, now, List.mem_append_left _ ((ho ref).1 ▸ hm)⟩
  case missed =>
    intro k req c hk
    rcases hm k req c hk with hk | ⟨hp, he⟩
    case inl =>
      have ⟨hp, ht⟩ := h.missed k req c hk
      exact ⟨hp.append, fun t hl => (ht t (hlast c ▸ hl)).trans hn⟩
    case inr =>
      refine ⟨hp, fun t ht => not_lt.mp fun hlt => ?_⟩
      have ⟨ref, hr, hlt⟩ := hlive c t (hlast c ▸ ht) hlt
      exact absurd (he ref hr) (not_le.mpr hlt)

theorem Inv.hit (h : Inv o tr s) (hs : s.sessions.storage c = some ref)
    (hx : s.now < (s.sessions.objects ref).expiresAt) (hp : ∀ r' q, p ≠ .missed r' q) :
    Inv o (tr ++ [.lookup k (some c) s.now (some ref)])
      { s with sessions := s.sessions.modify ref ({ · with expiresAt := s.now + o.ttl }),
               phase := Function.update s.phase k p } := by
  have hself : lastUse (tr ++ [.lookup k (some c) s.now (some ref)]) c = some s.now := by
    simp [lastUse_concat, useOf]
  have hlast c' (hc : c ≠ c') : lastUse (tr ++ [.lookup k (some c) s.now (some ref)]) c' = lastUse tr c' := by
    simp [lastUse_concat, useOf, hc]
  constructor
  case storage =>
    intro c' ref' hs'
    have ⟨hr, hid, t, ht, he⟩ := h.storage c' ref' hs'
    by_cases hc : ref' = ref
    case pos =>
      cases hc
      cases h.storage_inj hs hs'
      exact ⟨hr, by simp [Sessions.modify, hid], s.now, hself, by simp [Sessions.modify]⟩
    case neg =>
      have hne : c ≠ c' := by
        rintro rfl
        exact hc (Option.some.inj (hs'.symm.trans hs))
      refine ⟨hr, ?_, t, (hlast c' hne).trans ht, ?_⟩
      · simpa [Sessions.modify, Function.update_of_ne hc] using hid
      · simpa [Sessions.modify, Function.update_of_ne hc] using he
  case live =>
    intro c' t ht hlt
    by_cases hc : c = c'
    case pos => exact ⟨ref, hc ▸ hs⟩
    case neg => exact h.live c' t (hlast c' hc ▸ ht) hlt
  case issued =>
    intro c' t ht
    by_cases hc : c = c'
    case pos =>
      have ⟨_, _, t', ht', _⟩ := h.storage c ref hs
      exact hc ▸ (h.issued c t' ht').append
    case neg => exact (h.issued c' t (hlast c' hc ▸ ht)).append
  case created =>
    intro ref' hr
    have ⟨j, now, hm⟩ := h.created ref' hr
    refine ⟨j, now, List.mem_append_left _ ?_⟩
    by_cases hc : ref' = ref
    case pos => simpa [Sessions.modify, hc] using hc ▸ hm
    case neg => simpa [Sessions.modify, Function.update_of_ne hc] using hm
  case missed =>
    intro j req c' hj
    by_cases hk : j = k
    case pos => exact absurd (by simpa [hk] using hj) (hp req (some c'))
    case neg =>
      simp only [Function.update_of_ne hk] at hj
      have ⟨hpres, ht⟩ := h.missed j req c' hj
      have hne : c ≠ c' := by
        rintro rfl
        have ⟨_, _, t, hl, he⟩ := h.storage c ref hs
        exact absurd (ht t hl) (not_le.mpr (he ▸ hx))
      exact ⟨hpres.append, fun t hl => ht t (hlast c' hne ▸ hl)⟩

theorem Inv.create {id : Bytes} (h : Inv o tr s) (hk : s.phase k = .missed req sid) (hi : ¬Issued tr id)
    (hn : ¬Presented tr id) (hr : s.sessions.renew o.ttl s.now sid id = (ref, sessions))
    (hp : ∀ r' q, p ≠ .missed r' q) :
    Inv o (tr ++ [.create k id s.now ref]) { s with sessions, phase := Function.update s.phase k p } := by
  have ⟨href, hcount, hobj, hnew, hold⟩ := Sessions.renew_eq hr
  have hself : lastUse (tr ++ [.create k id s.now ref]) id = some s.now := by
    simp [lastUse_concat, useOf]
  have hlast c (hc : c ≠ id) : lastUse (tr ++ [.create k id s.now ref]) c = lastUse tr c := by
    simp [lastUse_concat, useOf, Ne.symm hc]
  have hobj' r (hr : r < s.sessions.count) : sessions.objects r = s.sessions.objects r := by
    rw [hobj, Function.update_of_ne hr.ne]
  constructor
  case storage =>
    intro c r hs
    by_cases hc : c = id
    case pos =>
      cases hc
      cases hnew.symm.trans hs
      exact ⟨by simp [hcount], by simp [hobj], s.now, hself, by simp [hobj]⟩
    case neg =>
      simp only [hold c hc] at hs
      split at hs
      case isTrue => contradiction
      case isFalse =>
        have ⟨hlt, hid, t, ht, he⟩ := h.storage c r hs
        exact ⟨by simp only [hcount]; omega, by simpa [hobj' r hlt] using hid, t, (hlast c hc).trans ht,
          by simpa [hobj' r hlt] using he⟩
  case live =>
    intro c t ht hlt
    by_cases hc : c = id
    case pos => exact ⟨_, hc ▸ hnew⟩
    case neg =>
      rw [hlast c hc] at ht
      have ⟨r, hs⟩ := h.live c t ht hlt
      refine ⟨r, (hold c hc).trans ?_⟩
      rw [if_neg, hs]
      rintro rfl
      exact absurd ((h.missed k req c hk).2 t ht) (not_le.mpr hlt)
  case issued =>
    intro c t ht
    by_cases hc : c = id
    case pos => exact ⟨k, s.now, ref, by simp [hc]⟩
    case neg => exact (h.issued c t (hlast c hc ▸ ht)).append
  case created =>
    intro r hlt
    simp only [hcount] at hlt
    by_cases hrc : r = s.sessions.count
    case pos => exact ⟨k, s.now, by simp [hrc, hobj, href]⟩
    case neg =>
      have hlt : r < s.sessions.count := by omega
      have ⟨j, now, hm⟩ := h.created r hlt
      exact ⟨j, now, List.mem_append_left _ (by simpa [hobj' r hlt] using hm)⟩
  case missed =>
    intro j req' c hj
    by_cases hjk : j = k
    case pos => exact absurd (by simpa [hjk] using hj) (hp req' (some c))
    case neg =>
      simp only [Function.update_of_ne hjk] at hj
      have ⟨hpres, ht⟩ := h.missed j req' c hj
      have hc : c ≠ id := by
        rintro rfl
        exact hn hpres
      exact ⟨hpres.append, fun t hl => ht t (hlast c hc ▸ hl)⟩

theorem missed_of_update {phase : Nat → Phase} (h : Function.update phase k p j = .missed req sid) :
    phase j = .missed req sid ∨ p = .missed req sid := by
  by_cases hjk : j = k
  case pos => exact .inr (by simpa [hjk] using h)
  case neg => exact .inl (by simpa [Function.update_of_ne hjk] using h)

theorem modify_set_times (sessions : Sessions) (ref r : Nat) (key value : Bytes) :
    ((sessions.modify ref (·.set key value)).objects r).id = (sessions.objects r).id ∧
    ((sessions.modify ref (·.set key value)).objects r).expiresAt = (sessions.objects r).expiresAt := by
  by_cases hr : r = ref <;> simp [Sessions.modify, hr, SessionData.set]

theorem Inv.step (h : Inv o tr s) (hf : Fresh (tr ++ [e])) (hs : Step o s e s') : Inv o (tr ++ [e]) s' := by
  cases hs with
  | tick hn =>
    exact h.frame (fun _ => rfl) hn rfl (fun _ => ⟨rfl, rfl⟩) (fun _ _ => id) (fun _ _ hr _ => hr)
      fun _ _ _ => .inl
  | cleanup =>
    exact h.frame (fun _ => rfl) le_rfl rfl (fun _ => ⟨rfl, rfl⟩)
      (fun _ _ hr => (Sessions.cleanup_storage.mp hr).1) (fun _ _ hr hl => Sessions.cleanup_storage.mpr ⟨hr, hl⟩)
      fun _ _ _ => .inl
  | hit _ _ hr =>
    have ⟨c, hc, hst, hx, he⟩ := Sessions.find_eq_some hr
    subst hc he
    exact h.hit hst hx (by simp)
  | miss _ _ hr =>
    have ⟨he, hx⟩ := Sessions.find_eq_none hr
    subst he
    refine h.frame (fun _ => ?_) le_rfl rfl (fun _ => ⟨rfl, rfl⟩) (fun _ _ => id) (fun _ _ hr _ => hr)
      fun j req' c hj => (missed_of_update hj).imp_right fun he => ?_
    · simp only [useOf]
    · have hsid := (Phase.missed.inj he).2
      exact ⟨presented_of_lookup hsid, fun ref => hx c ref hsid⟩
  | create hk hr => exact h.create hk hf.concat.1 hf.concat.2 hr (by simp)
  | issue _ _ =>
    exact h.frame (fun _ => rfl) le_rfl rfl (fun _ => modify_set_times ..) (fun _ _ => id) (fun _ _ hr _ => hr)
      fun _ _ _ hj => .inl ((missed_of_update hj).resolve_right (by simp))
  | verify _ _ _ =>
    exact h.frame (fun _ => rfl) le_rfl rfl (fun _ => ⟨rfl, rfl⟩) (fun _ _ => id) (fun _ _ hr _ => hr)
      fun _ _ _ hj => .inl ((missed_of_update hj).resolve_right (by simp))
  | write _ =>
    exact h.frame (fun _ => rfl) le_rfl rfl (fun _ => modify_set_times ..) (fun _ _ => id) (fun _ _ hr _ => hr)
      fun _ _ _ => .inl

theorem Inv.of_run (h : Run (Step o) (.start now) tr s) (hf : Fresh tr) : Inv o tr s :=
  h.history (I := fun tr s => Fresh tr → Inv o tr s) (fun _ => .start)
    (fun _ _ _ _ _ hs hi hf => (hi hf.of_append).step hf hs) hf

section Cleanup

def Act.isCleanup : Act → Bool
  | .cleanup => true
  | _        => false

-- The world with another table of sessions.
def World.withStorage (s : World) (st : Bytes → Option Nat) : World :=
  { s with sessions := { s.sessions with storage := st } }

-- A table that has not been tidied up. It can contain more sessions, which have expired.
def Untidy (s : World) (st : Bytes → Option Nat) : Prop :=
  ∀ c, st c = s.sessions.storage c ∨ (s.sessions.storage c = none ∧
    ∀ ref, st c = some ref → (s.sessions.objects ref).expiresAt ≤ s.now)

variable {st : Bytes → Option Nat}

theorem Untidy.storage_eq (h : Untidy s st) (hs : s.sessions.storage c = some ref) : st c = some ref := by
  cases h c
  case inl he => exact he.trans hs
  case inr he => exact absurd (he.1.symm.trans hs) (by simp)

-- What is in the table is still there, or expires.
theorem Untidy.mono (h : Untidy s st) (hn : s.now ≤ s'.now)
    (hs : ∀ c, s'.sessions.storage c = s.sessions.storage c)
    (ho : ∀ ref, (s'.sessions.objects ref).expiresAt = (s.sessions.objects ref).expiresAt) : Untidy s' st := by
  intro c
  rw [hs]
  exact (h c).imp_right fun he => ⟨he.1, fun ref hr => (ho ref ▸ he.2 ref hr).trans hn⟩

theorem Untidy.hit (h : Untidy s st) (hi : Inv o tr (s.withStorage st)) (hs : s.sessions.storage c = some ref) :
    Untidy { s with sessions := s.sessions.modify ref ({ · with expiresAt := now }), phase := phase } st := by
  intro c'
  refine (h c').imp_right fun ⟨he, hx⟩ => ⟨he, fun ref' ht => ?_⟩
  have hne : ref' ≠ ref := by
    rintro rfl
    cases hi.storage_inj ht (h.storage_eq hs)
    exact absurd (he.symm.trans hs) (by simp)
  simpa [Sessions.modify, Function.update_of_ne hne] using hx ref' ht

theorem Untidy.create {id : Bytes} (h : Untidy s st) (hi : Inv o tr (s.withStorage st))
    (hr : s.sessions.renew o.ttl s.now sid id = (ref, sessions))
    (hr' : (s.withStorage st).sessions.renew o.ttl s.now sid id = (ref', sessions')) :
    Untidy { s with sessions, phase := phase } sessions'.storage := by
  have ⟨_, _, ho, hnew, hold⟩ := Sessions.renew_eq hr
  have ⟨_, _, _, hnew', hold'⟩ := Sessions.renew_eq hr'
  intro c
  by_cases hc : c = id
  case pos => exact .inl (hc ▸ hnew'.trans hnew.symm)
  case neg =>
    simp only [hold c hc, hold' c hc]
    split
    case isTrue  => exact .inl rfl
    case isFalse =>
      refine (h c).imp_right fun ⟨he, hx⟩ => ⟨he, fun ref ht => ?_⟩
      have hlt : ref < s.sessions.count := (hi.storage c ref ht).1
      simpa [ho, Function.update_of_ne hlt.ne] using hx ref ht

theorem Untidy.step (h : Untidy s st) (hi : Inv o tr (s.withStorage st)) (hs : Step o s e s')
    (he : e.isCleanup = false) : ∃ st', Step o (s.withStorage st) e (s'.withStorage st') ∧ Untidy s' st' := by
  cases hs with
  | tick hle     => exact ⟨st, .tick hle, h.mono hle (fun _ => rfl) fun _ => rfl⟩
  | cleanup      => contradiction
  | hit hk hq hr =>
    have ⟨c, hc, hst, hx, hu⟩ := Sessions.find_eq_some hr
    subst hc hu
    exact ⟨st, .hit hk hq (Sessions.find_of_live (h.storage_eq hst) hx), h.hit hi hst⟩
  | miss hk hq hr =>
    have ⟨he, hx⟩ := Sessions.find_eq_none hr
    subst he
    refine ⟨st, .miss hk hq (Sessions.find_of_expired fun c ref hc ht => ?_), h⟩
    cases h c
    case inl he => exact hx c ref hc (he.symm.trans ht)
    case inr he => exact he.2 ref ht
  | create hk hr =>
    have ⟨st', hr'⟩ := Sessions.renew_withStorage hr st
    exact ⟨st', .create hk hr', h.create hi hr hr'⟩
  | issue hk hm =>
    exact ⟨st, .issue hk hm, h.mono le_rfl (fun _ => rfl) fun ref => (modify_set_times ..).2⟩
  | verify hk hm hv => exact ⟨st, .verify hk hm hv, h⟩
  | write hk     => exact ⟨st, .write hk, h.mono le_rfl (fun _ => rfl) fun ref => (modify_set_times ..).2⟩

def tidy (tr : List Act) : List Act :=
  tr.filter (!·.isCleanup)

theorem mem_tidy (he : e.isCleanup = false) : e ∈ tidy tr ↔ e ∈ tr := by
  simp [tidy, he]

theorem issued_tidy : Issued (tidy tr) c ↔ Issued tr c :=
  exists_congr fun _ => exists_congr fun _ => exists_congr fun _ => mem_tidy rfl

theorem presented_tidy : Presented (tidy tr) c ↔ Presented tr c :=
  exists_congr fun _ => exists_congr fun _ => exists_congr fun _ => mem_tidy rfl

theorem Fresh.tidy (h : Fresh tr) : Fresh (tidy tr) := by
  intro tr₁ tr₂ k id now ref ht
  have ⟨l₁, l₂, hl, h₁, h₂⟩ := List.filter_eq_append_iff.mp ht
  have ⟨m₁, m₂, hm, hn, _, _⟩ := List.filter_eq_cons_iff.mp h₂
  have hm₁ : Session.tidy (l₁ ++ m₁) = tr₁ := by
    have : m₁.filter (!·.isCleanup) = [] := List.filter_eq_nil_iff.mpr (by simpa using hn)
    simp [Session.tidy, h₁, this]
  rw [← hm₁, issued_tidy, presented_tidy]
  exact h (l₁ ++ m₁) m₂ k id now ref (by simp [hl, hm])

end Cleanup

theorem parseCookie_total (cookieName cookie : Bytes) (i : Nat) :
    ∃ sid, parseCookie cookieName cookie i = .ok sid := by
  induction i using parseCookie.induct cookie with
  | case2 i hi => exact ⟨none, by rw [parseCookie, if_neg hi]; rfl⟩
  | case1 i hi semi ih =>
    rw [parseCookie, if_pos hi]
    simp only [Bytes.substr_of_le hi.le, bind, Except.bind]
    split
    case h_1 => exact ih
    case h_2 eq he =>
      rw [Bytes.substr_of_le (Nat.zero_le _), Bytes.substrFrom_of_le (show eq + 1 ≤ _ from Bytes.find_add_length_le he)]
      simp only
      split
      case isTrue  => exact ⟨_, rfl⟩
      case isFalse => exact ih

theorem sessionId_total (cookieName : Bytes) (req : Request) : ∃ sid, sessionId cookieName req = .ok sid := by
  unfold sessionId
  split
  case h_1 => exact ⟨none, rfl⟩
  case h_2 => exact parseCookie_total ..

-- The sections of a request can always be entered.
theorem answered (s : World) (h : s.phase k = .idle) (req : Request) :
    ∃ sid found s', sessionId o.cookieName req = .ok sid ∧ Step o s (.lookup k sid s.now found) s' := by
  have ⟨sid, hq⟩ := sessionId_total o.cookieName req
  match hr : s.sessions.find o.ttl s.now sid with
  | (some ref, _) => exact ⟨sid, some ref, _, hq, .hit h hq hr⟩
  | (none, _)     => exact ⟨sid, none, _, hq, .miss h hq hr⟩

theorem count_mono (h : Step o s e s') : s.sessions.count ≤ s'.sessions.count := by
  cases h with
  | hit _ _ hr =>
    have ⟨_, _, _, _, hu⟩ := Sessions.find_eq_some hr
    exact hu ▸ le_rfl
  | miss _ _ hr   => exact (Sessions.find_eq_none hr).1 ▸ le_rfl
  | create _ hr   => exact (Sessions.renew_eq hr).2.1 ▸ Nat.le_succ _
  | _             => exact le_rfl

theorem created_lt (h : Run (Step o) (.start now) tr s) (hm : .create k c t ref ∈ tr) : ref < s.sessions.count := by
  have ⟨tr₁, tr₂, ht⟩ := List.append_of_mem hm
  subst ht
  have ⟨m, m', _, hs, h₂⟩ := Run.mid_iff.mp h
  have hle : m'.sessions.count ≤ s.sessions.count :=
    h₂.monotone (R := fun s s' => s.sessions.count ≤ s'.sessions.count) (fun _ => le_rfl)
      (fun _ _ _ => le_trans) fun _ _ _ => count_mono
  cases hs with
  | create _ hr =>
    have ⟨href, hc, _⟩ := Sessions.renew_eq hr
    exact Nat.lt_of_lt_of_le (by simp [href, hc]) hle

-- A request after the section that looks its session up.
def lookedUp (req : Request) (sid : Option Bytes) : Option Nat → Phase
  | some ref => .bound req ref none
  | none     => .missed req sid

-- A section that looks a session up decides by the labels so far.
theorem bound (h : Inv o tr s) (hs : Step o s (.lookup k sid now found) s') :
    (found.isSome ↔ ∃ c t, sid = some c ∧ Issued tr c ∧ lastUse tr c = some t ∧ now < t + o.ttl) ∧
    (∀ ref, found = some ref → ∃ c j t, sid = some c ∧ .create j c t ref ∈ tr) ∧
    ∃ req, sessionId o.cookieName req = .ok sid ∧ s'.phase k = lookedUp req sid found := by
  cases hs with
  | hit _ hq hr =>
    have ⟨c, hc, hst, hx, _⟩ := Sessions.find_eq_some hr
    have ⟨hlt, hid, t, ht, he⟩ := h.storage c _ hst
    have ⟨j, t', hm⟩ := h.created _ hlt
    refine ⟨⟨fun _ => ⟨c, t, hc, h.issued c t ht, ht, he ▸ hx⟩, fun _ => rfl⟩, fun ref hr => ?_, _, hq,
      Function.update_self ..⟩
    cases hr
    exact ⟨c, j, t', hc, hid ▸ hm⟩
  | miss _ hq hr =>
    have hx := (Sessions.find_eq_none hr).2
    refine ⟨⟨nofun, fun ⟨c, t, hc, _, ht, hlt⟩ => ?_⟩, nofun, _, hq, Function.update_self ..⟩
    have ⟨ref, hst⟩ := h.live c t ht hlt
    exact absurd (hx c ref hc hst) (not_le.mpr (h.expiresAt hst ht ▸ hlt))

theorem created {id : Bytes} (h : Run (Step o) (.start now₀) tr s) (hs : Step o s (.create k id now ref) s')
    (hf : Fresh (tr ++ [.create k id now ref])) :
    (¬Issued tr id ∧ ¬Presented tr id ∧ ∀ j c t, .create j c t ref ∉ tr) ∧
    s'.sessions.storage id = some ref ∧ (s'.sessions.objects ref).id = id ∧
    ∃ req, s'.phase k = .bound req ref (some (setCookie o id)) := by
  cases hs with
  | create hk hr =>
    have ⟨href, _, ho, hnew, _⟩ := Sessions.renew_eq hr
    refine ⟨⟨hf.concat.1, hf.concat.2, fun j c t hm => ?_⟩, href ▸ hnew, by simp [ho, href], _,
      Function.update_self ..⟩
    exact absurd (created_lt h hm) (by omega)

-- No step erases a session that is live.
theorem kept (h : Inv o tr s) (hs : Step o s e s') (hf : Fresh (tr ++ [e]))
    (hst : s.sessions.storage c = some ref) (hlt : s'.now < (s.sessions.objects ref).expiresAt) :
    s'.sessions.storage c = some ref := by
  have ⟨_, _, t, ht, he⟩ := h.storage c ref hst
  cases hs with
  | cleanup => exact Sessions.cleanup_storage.mpr ⟨hst, hlt⟩
  | hit _ _ hr =>
    have ⟨_, _, _, _, hu⟩ := Sessions.find_eq_some hr
    exact hu ▸ hst
  | miss _ _ hr => exact (Sessions.find_eq_none hr).1 ▸ hst
  | create hk hr =>
    have ⟨_, _, _, _, hold⟩ := Sessions.renew_eq hr
    refine (hold c ?_).trans ((if_neg ?_).trans hst)
    · rintro rfl
      exact hf.concat.1 (h.issued _ t ht)
    · rintro rfl
      exact absurd ((h.missed _ _ c hk).2 t ht) (not_le.mpr (he ▸ hlt))
  | _ => exact hst

def firstId : Bytes :=
  List.replicate 64 97

def returning : Request where
  headers := (∅ : StringMap).insert "Cookie" (Bytes.ofString "session_id=" ++ firstId)

end Session
end YNet
