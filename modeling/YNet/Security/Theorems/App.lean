import YNet.Security.App
import YNet.Security.Theorems.Csrf

namespace YNet.App

variable {guard : PathGuard} {req : Request} {v : Visit} {x : Exchange} {i : Nat}
  {next : Layer Shared Event Trouble Visit} {m : Registered} {ms : List Registered}

def Event.isCrash : Event → Prop
  | ended (some .nullSession) => True
  | _                         => False

-- No run dereferences a null pointer.
def Safe (t : Process Shared Event) : Prop :=
  t.Avoids (fun _ => True) Event.isCrash

-- The requests on which `Csrf` uses the session.
def UsesSession (req : Request) : Prop :=
  req.method = ("GET" : Bytes) ∨ req.method = ("POST" : Bytes) ∨ req.method = ("PUT" : Bytes) ∨
    req.method = ("DELETE" : Bytes)

-- Whether a middleware forwards a request that has no session, in some state at least.
def Registered.Passes (guard : PathGuard) (req : Request) : Registered → Prop
  | cors _            => req.method ≠ ("OPTIONS" : Bytes)
  | rateLimit n p     => p ≠ 0 ∧ 1 ≤ n
  | sanitizer         => Sanitizer.isBlocked req.path = false
  | pathGuard         => ({ guard with blacklist := ∅ }.check req).1 = false
  | csrf              => False
  | logger            => True
  | secureHeaders _   => True
  | session           => True

section Middlewares

@[simp]
theorem safe_stop : Safe .stop :=
  trivial

@[simp]
theorem safe_emit : Safe (.emit e t) ↔ ¬e.isCrash ∧ Safe t :=
  Iff.rfl

@[simp]
theorem safe_act : Safe (.act update rest) ↔ ∀ s, Safe (rest s) :=
  forall_congr' fun _ => forall_const _

def finish (e : Option Trouble) (_ : Visit) : Process Shared Event :=
  .emit (.ended e) .stop

theorem finish_none : Safe (finish none v) :=
  ⟨id, trivial⟩

theorem finish_fault : Safe (finish (some (.fault e)) v) :=
  ⟨id, trivial⟩

theorem finish_badAccess : Safe (finish (some .badAccess) v) :=
  ⟨id, trivial⟩

theorem not_finish_null : ¬Safe (finish (some .nullSession) v) :=
  fun h => h.1 trivial

theorem plain_next {ref : Option Nat} :
    plain (.next x .forward) ref = .next { x with session := ref } .forward := by
  rw [plain]
  congr
  funext e v
  cases e with
  | none   => rfl
  | some e => cases e <;> rfl

theorem safe_ret {ref : Option Nat} : Safe ((plain (.ret x) ref).run next finish) :=
  finish_none

theorem safe_next {ref : Option Nat} :
    Safe ((plain (.next x .forward) ref).run next finish) ↔ Safe (next { x with session := ref } finish) := by
  rw [plain_next, Code.run_next_forward]

-- No client gets more tokens than the limiter allows, and a new one gets as many.
theorem le_of_visit {n p : Int} (h : (RateLimiter.visit n p now b).1 = true) : 1 ≤ n := by
  have h : (1 : ℚ) ≤ n := by
    unfold RateLimiter.visit at h
    generalize (if b.initialized then b else ⟨n, now, true⟩) = b at h
    dsimp only at h
    split_ifs at h with hn ht ht
    case pos => exact ht
    case pos => exact le_trans ht (not_lt.mp hn)
  exact_mod_cast h

theorem visit_new {n p : Int} (h : 1 ≤ n) : (RateLimiter.visit n p now { lastRefill := now }).1 = true := by
  have h : (1 : ℚ) ≤ n := by exact_mod_cast h
  simp [RateLimiter.visit, h]

theorem handle_iff {n p : Int} (ip : Bytes) (s₀ : Shared) :
    (∃ s : Shared, (RateLimiter.handle n p s.steady ip (s.buckets i)).1 = true) ↔ 1 ≤ n := by
  constructor
  · exact fun ⟨s, h⟩ => le_of_visit h
  · exact fun h => ⟨{ s₀ with buckets := fun _ => ∅ }, visit_new h⟩

-- Without a blacklist, the guard lets pass what it would let pass with some other one.
theorem inspect_iff (s₀ : Shared) : (∃ s : Shared, { guard with blacklist := s.blacklist }.inspect req = .pass) ↔
    ({ guard with blacklist := ∅ }.check req).1 = false := by
  rw [PathGuard.check_eq]
  constructor
  · rintro ⟨s, h⟩
    have h : { guard with blacklist := ∅ }.inspect req = .pass := by
      unfold PathGuard.inspect at h ⊢
      split_ifs at h ⊢ with h₁ h₂ h₃ h₄ h₅ <;> simp_all [PathGuard.isBlocked]
    rw [h]
  · intro h
    refine ⟨{ s₀ with blacklist := ∅ }, ?_⟩
    revert h
    cases { guard with blacklist := ∅ }.inspect req <;> simp

theorem rateLimit_safe_iff {n p : Int} {ref : Option Nat} (s₀ : Shared) :
    Safe ((plain (rateLimit i n p x) ref).run next finish) ↔
      (p ≠ 0 ∧ 1 ≤ n → Safe (next { x with session := ref } finish)) := by
  unfold rateLimit
  split
  case isTrue hp  => exact iff_of_true safe_ret fun h => absurd hp h.1
  case isFalse hp =>
    simp only [RateLimiter.rateLimiter, Code.zoom, plain, Code.run, safe_act]
    rw [← handle_iff (p := p) (i := i) x.req.clientIp s₀]
    constructor
    · rintro h ⟨_, s, hs⟩
      have h := h s
      rwa [if_pos hs, Code.zoom_next_forward (fun _ => rfl) (fun _ _ => rfl), safe_next] at h
    · intro h s
      split
      case isFalse => exact safe_ret
      case isTrue hs =>
        rw [Code.zoom_next_forward (fun _ => rfl) (fun _ _ => rfl), safe_next]
        exact h ⟨hp, s, hs⟩

theorem pathGuard_safe_iff {ref : Option Nat} (s₀ : Shared) :
    Safe ((plain (pathGuard guard x) ref).run next finish) ↔
      (({ guard with blacklist := ∅ }.check x.req).1 = false → Safe (next { x with session := ref } finish)) := by
  unfold pathGuard
  simp only [PathGuard.toMiddleware, Code.zoom, plain, Code.run, safe_act]
  rw [← inspect_iff s₀]
  constructor
  · rintro h ⟨s, hs⟩
    have h := h s
    simp only [hs] at h
    rwa [Code.zoom_next_forward (fun _ => rfl) (fun _ _ => rfl), safe_next] at h
  · intro h s
    split
    case h_1 hs =>
      rw [Code.zoom_next_forward (fun _ => rfl) (fun _ _ => rfl), safe_next]
      exact h ⟨s, hs⟩
    case h_2 => exact safe_ret
    case h_3 => exact fun _ _ => safe_ret

-- A middleware that does not touch the session.
theorem plain_safe_iff {P : Prop} (s₀ : Shared) (hc : m ≠ .csrf) (hs : m ≠ .session)
    (hP : ∀ res, Safe (next { v with res } finish) ↔ P) :
    Safe ((m.middleware guard i v).run next finish) ↔ (m.Passes guard v.req → P) := by
  cases m with
  | csrf                => contradiction
  | session             => contradiction
  | rateLimit n p       => exact (rateLimit_safe_iff s₀).trans (imp_congr_right fun _ => hP v.res)
  | pathGuard           => exact (pathGuard_safe_iff s₀).trans (imp_congr_right fun _ => hP v.res)
  | logger              => exact safe_next.trans ((hP v.res).trans (true_imp_iff).symm)
  | secureHeaders csp   => exact safe_next.trans ((hP _).trans (true_imp_iff).symm)
  | cors origin         =>
    simp only [Registered.middleware, cors]
    split
    case isTrue h  => exact iff_of_true safe_ret fun hm => absurd h hm
    case isFalse h => exact safe_next.trans ((hP _).trans ⟨fun hp _ => hp, fun hp => hp h⟩)
  | sanitizer           =>
    simp only [Registered.middleware, sanitizer]
    split
    case isTrue h  => exact iff_of_true safe_ret fun hm => absurd (h.symm.trans hm) (by simp)
    case isFalse h =>
      exact safe_next.trans ((hP v.res).trans ⟨fun hp _ => hp, fun hp => hp (Bool.eq_false_iff.mpr h)⟩)

theorem session_safe {o : Session.Options} (hn : ∀ v', v'.session.isSome → Safe (next v' finish)) :
    Safe ((App.session o v).run next finish) := by
  unfold App.session
  split
  case h_1 => exact finish_fault
  case h_2 sid _ =>
    simp only [Code.run, safe_act]
    intro s
    split
    case h_1 =>
      rw [Code.run_next_forward]
      exact hn _ rfl
    case h_2 =>
      simp only [Code.run, Code.run_forward, safe_act]
      exact fun _ => hn _ rfl

theorem csrf_safe (hs : v.session.isSome) (hn : ∀ v', v'.session.isSome → Safe (next v' finish)) :
    Safe ((csrf v).run next finish) := by
  have ⟨ref, hr⟩ := Option.isSome_iff_exists.mp hs
  unfold csrf
  simp only [hr]
  split
  case isTrue =>
    simp only [Code.run, Code.run_forward, safe_act]
    exact fun _ _ => hn _ rfl
  case isFalse =>
    split
    case isFalse => exact finish_none
    case isTrue =>
      simp only [Code.run, safe_act]
      intro s
      split
      case h_1 => exact finish_badAccess
      case h_2 =>
        simp only [Code.run, safe_act]
        intro s'
        split
        case isTrue =>
          rw [Code.run_next_forward]
          exact hn v hs
        case isFalse => exact finish_none

-- Without a session, the code forwards nothing.
theorem csrf_safe_iff (s₀ : Shared) (hs : v.session = none) : Safe ((csrf v).run next finish) ↔ ¬UsesSession v.req := by
  unfold csrf UsesSession
  simp only [hs]
  split
  case isTrue h =>
    simp only [Code.run, safe_act, h, true_or, not_true, iff_false, not_forall]
    exact ⟨s₀, not_finish_null⟩
  case isFalse h =>
    rw [or_iff_right h]
    split
    case isTrue h  =>
      refine iff_of_false (fun hsafe => ?_) (not_not.mpr h)
      -- The token can be read in some memory.
      have ⟨memory, t, ht⟩ := Csrf.exists_token v.req
      have hsafe := safe_act.mp hsafe { s₀ with freed := memory }
      simp only [ht] at hsafe
      exact not_finish_null hsafe
    case isFalse h => exact iff_of_true finish_none h

end Middlewares

section Chain

variable {handler : Handler Shared} {inner : Layer Shared Event Trouble Visit}

-- The code of a handler does not touch the session.
theorem plain_safe {c : Code Shared Fault Exchange} {ref : Option Nat} : Safe ((plain c ref).exec finish) := by
  induction c generalizing ref with
  | ret x           => exact finish_none (v := { x with session := ref })
  | throw e x       => exact finish_fault (v := { x with session := ref })
  | hang            => trivial
  | act update _ hi => exact safe_act.mpr fun s => hi s
  | next x rest hi  =>
    rw [plain]
    exact hi none x

variable {o : Nat → Nat}

-- The middlewares from `i` on.
def chain (guard : PathGuard) (inner : Layer Shared Event Trouble Visit) (i : Nat) (o : Nat → Nat)
    (ms : List Registered) (v : Visit) : Process Shared Event :=
  Code.chain .enter .next inner i (ms.mapIdx fun j => Registered.middleware guard (o j)) v finish

theorem chain_cons : Safe (chain guard inner i o (m :: ms) v) ↔
    Safe ((m.middleware guard (o 0) v).run
      (fun a k => .emit (.next i) (Code.chain .enter .next inner (i + 1)
        (ms.mapIdx fun j => Registered.middleware guard (o (j + 1))) a k)) finish) := by
  rw [chain, List.mapIdx_cons]
  exact and_iff_right id

-- Behind a middleware that has set a session, nothing can go wrong.
theorem chain_safe (hin : ∀ v, Safe (inner v finish)) (hs : v.session.isSome) (s₀ : Shared) :
    Safe (chain guard inner i o ms v) := by
  induction ms generalizing i v o with
  | nil => exact hin v
  | cons m ms hi =>
    have hn (v' : Visit) (hs : v'.session.isSome) := safe_emit (e := .next i).mpr
      ⟨id, hi (i := i + 1) (o := fun j => o (j + 1)) hs⟩
    rw [chain_cons]
    by_cases hm : m = .session
    case pos =>
      subst hm
      exact session_safe hn
    case neg =>
      by_cases hc : m = .csrf
      case pos =>
        subst hc
        exact csrf_safe hs hn
      case neg =>
        exact (plain_safe_iff (P := True) s₀ hc hm fun res => iff_of_true (hn { v with res } hs) trivial).mpr
          fun _ => trivial

-- What keeps a request without a session from a `Csrf` that uses it.
def Guarded (guard : PathGuard) (req : Request) : List Registered → Prop
  | []            => True
  | .session :: _ => True
  | .csrf :: _    => ¬UsesSession req
  | m :: ms       => m.Passes guard req → Guarded guard req ms

theorem guarded_cons (hc : m ≠ .csrf) (hs : m ≠ .session) :
    Guarded guard req (m :: ms) ↔ (m.Passes guard req → Guarded guard req ms) := by
  cases m <;> first | contradiction | rfl

theorem chain_safe_iff (hin : ∀ v, Safe (inner v finish)) (hs : v.session = none) (s₀ : Shared) :
    Safe (chain guard inner i o ms v) ↔ Guarded guard v.req ms := by
  induction ms generalizing i v o with
  | nil => exact iff_of_true (hin v) trivial
  | cons m ms hi =>
    rw [chain_cons]
    by_cases hm : m = .session
    case pos =>
      subst hm
      refine iff_of_true (session_safe fun v' hs' => safe_emit.mpr ⟨id, ?_⟩) trivial
      exact chain_safe (o := fun j => o (j + 1)) hin hs' s₀
    case neg =>
      by_cases hc : m = .csrf
      case pos =>
        subst hc
        exact csrf_safe_iff s₀ hs
      case neg =>
        rw [guarded_cons hc hm]
        refine plain_safe_iff s₀ hc hm fun res => ?_
        rw [safe_emit]
        exact (and_iff_right id).trans (hi (v := { v with res }) (o := fun j => o (j + 1)) hs)

theorem guarded_iff : Guarded guard req ms ↔ ∀ pre post, ms = pre ++ .csrf :: post →
    .session ∈ pre ∨ ¬UsesSession req ∨ ∃ m ∈ pre, ¬m.Passes guard req := by
  induction ms with
  | nil => exact iff_of_true trivial (by simp)
  | cons m ms hi =>
    by_cases hm : m = .session
    case pos =>
      subst hm
      refine iff_of_true trivial fun pre post he => ?_
      cases pre with
      | nil => simp at he
      | cons => exact .inl ((List.cons.inj he).1 ▸ List.mem_cons_self)
    case neg =>
      by_cases hc : m = .csrf
      case pos =>
        subst hc
        constructor
        · intro h pre post he
          exact .inr (.inl h)
        · intro h
          have h : ¬UsesSession req := by simpa using h [] ms rfl
          exact h
      case neg =>
        rw [guarded_cons hc hm, hi]
        constructor
        · intro h pre post he
          cases pre with
          | nil => exact absurd (List.cons.inj he).1 hc
          | cons m' pre =>
            cases he
            by_cases hp : m.Passes guard req
            case neg => exact .inr (.inr ⟨m, List.mem_cons_self, hp⟩)
            case pos =>
              refine (h hp pre post rfl).imp (List.mem_cons_of_mem _) (Or.imp_right ?_)
              exact fun ⟨m', hm', hn⟩ => ⟨m', List.mem_cons_of_mem _ hm', hn⟩
        · intro h hp pre post he
          refine (h (m :: pre) post (congrArg _ he)).imp ?_ (Or.imp_right ?_)
          · exact fun hs => (List.mem_cons.mp hs).resolve_left (Ne.symm hm)
          · rintro ⟨m', hm', hn⟩
            cases List.mem_cons.mp hm' with
            | inl he  => exact absurd (he ▸ hp) hn
            | inr hm' => exact ⟨m', hm', hn⟩

end Chain

theorem handle_safe_iff {handler : Handler Shared} :
    Safe (handle guard ms handler req) ↔ Guarded guard req ms := by
  let s₀ : Shared := { blacklist := ∅, buckets := fun _ => ∅, sessions := .empty, steady := 0, time := 0, random := [],
                       freed := fun _ => none }
  exact chain_safe_iff (i := 0) (o := fun j => j) (v := { req, res := {} }) (fun _ => plain_safe) rfl s₀

theorem safe_iff {t : Process Shared Event} : Safe t ↔ ∀ tr, t.Trace tr → .ended (some .nullSession) ∉ tr := by
  refine Process.avoids_iff.trans (forall₂_congr fun tr _ => ⟨fun h hm => h _ hm trivial, fun h e hm he => ?_⟩)
  cases e with
  | enter => contradiction
  | next  => contradiction
  | ended e =>
    cases e with
    | none   => contradiction
    | some e =>
      cases e with
      | fault       => contradiction
      | badAccess   => contradiction
      | nullSession => exact h hm

-- No middleware dereferences a null pointer if and only if each `Csrf` comes after a `Session`, or the
-- request does not use the session, or some middleware in front of it never forwards the request.
theorem null_session_iff (guard : PathGuard) (ms : List Registered) (handler : Handler Shared) (req : Request) :
    (∀ tr, (handle guard ms handler req).Trace tr → .ended (some .nullSession) ∉ tr) ↔
      ∀ pre post, ms = pre ++ .csrf :: post →
        .session ∈ pre ∨ ¬UsesSession req ∨ ∃ m ∈ pre, ¬m.Passes guard req := by
  rw [← safe_iff, handle_safe_iff, guarded_iff]

-- The order of the calls in the example of the documentation.
theorem not_null_session : ¬∀ (guard : PathGuard) (ms : List Registered) (handler : Handler Shared) (raw : Bytes)
    (config : Config) (req : Request), Request.parse raw config = .ok req → req.parseError = false →
    ∀ tr, (handle guard ms handler req).Trace tr → .ended (some .nullSession) ∉ tr := by
  intro h
  have he : (Request.parse "GET /path HTTP/1.1\r\n\r\n" {}).toOption.map
      (fun req => (req.parseError, req.method)) = some (false, ("GET" : Bytes)) := by
    decide +kernel
  have ⟨req, hr, hp⟩ := Exn.exists_of_map_toOption he
  have ⟨ha, hm⟩ := Prod.mk.inj hp
  have hs := h {} [.cors "*", .logger, .csrf, .sanitizer, .secureHeaders "", .session, .rateLimit 100 60]
    (fun x => .ret x) _ {} req hr ha
  have hg : req.method ≠ ("OPTIONS" : Bytes) → True → ¬UsesSession req := handle_safe_iff.mp (safe_iff.mpr hs)
  have hne : req.method ≠ ("OPTIONS" : Bytes) := by
    rw [hm]
    decide
  exact hg hne trivial (.inl hm)

end YNet.App
