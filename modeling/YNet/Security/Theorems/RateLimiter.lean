import YNet.Lib.TokenBucket
import YNet.Security.RateLimiter

namespace YNet.RateLimiter

variable {maxRequests periodSeconds : Int} {ip : Bytes} {buckets : Buckets} {vs : List Visit}

-- A bucket that has been used is a token bucket, which is refilled at the rate of the limiter.
def ofTokenBucket (b : TokenBucket ℚ) : Bucket :=
  ⟨b.tokens, b.last, true⟩

def rate (maxRequests periodSeconds : Int) : ℚ :=
  maxRequests / periodSeconds

theorem visit_ofTokenBucket (b : TokenBucket ℚ) :
    visit maxRequests periodSeconds now (ofTokenBucket b) =
      ((b.take (maxRequests : ℚ) (rate maxRequests periodSeconds) now).1,
        ofTokenBucket (b.take (maxRequests : ℚ) (rate maxRequests periodSeconds) now).2) := by
  have hmin (x y : ℚ) : (if x > y then y else x) = min y x := by
    rw [min_def]
    split_ifs with h₁ h₂ h₂
    · rfl
    · exact absurd h₁.le h₂
    · exact le_antisymm (not_lt.mp h₁) h₂
    · rfl
  simp only [visit, ofTokenBucket, if_true, hmin, TokenBucket.take, TokenBucket.refill, rate, ge_iff_le]
  by_cases h : 1 ≤ min (maxRequests : ℚ) (b.tokens + (now - b.last) * (maxRequests / periodSeconds)) <;>
    simp only [h, if_true, if_false]

theorem visit_fresh :
    visit maxRequests periodSeconds now { lastRefill := now } =
      visit maxRequests periodSeconds now (ofTokenBucket (.start (maxRequests : ℚ) now)) :=
  rfl

-- A request of another client leaves a bucket as it is.
theorem lookup_handle_of_ne (h : ip ≠ ip') :
    (handle maxRequests periodSeconds now ip' buckets).2.lookup ip = buckets.lookup ip :=
  Finmap.lookup_insert_of_ne _ h

theorem handle_of_lookup {b : TokenBucket ℚ} (h : buckets.lookup ip = some (ofTokenBucket b)) :
    (handle maxRequests periodSeconds now ip buckets).1 =
      (b.take (maxRequests : ℚ) (rate maxRequests periodSeconds) now).1 ∧
    (handle maxRequests periodSeconds now ip buckets).2.lookup ip =
      some (ofTokenBucket (b.take (maxRequests : ℚ) (rate maxRequests periodSeconds) now).2) := by
  simp only [handle, h, Option.getD_some, visit_ofTokenBucket, Finmap.lookup_insert, and_self]

theorem handle_of_lookup_none (h : buckets.lookup ip = none) :
    handle maxRequests periodSeconds now ip buckets =
      handle maxRequests periodSeconds now ip (buckets.insert ip (ofTokenBucket (.start (maxRequests : ℚ) now))) := by
  simp [handle, h, visit_fresh]

def times (ip : Bytes) (vs : List Visit) : List ℚ :=
  (vs.filter (·.ip = ip)).map (·.time)

def ofClient (ip : Bytes) (rs : List (Visit × Bool)) : List (ℚ × Bool) :=
  (rs.filter (·.1.ip = ip)).map fun r => (r.1.time, r.2)

theorem times_cons_self {v : Visit} : times v.ip (v :: vs) = v.time :: times v.ip vs := by
  simp [times]

theorem times_cons_of_ne {v : Visit} (h : v.ip ≠ ip) : times ip (v :: vs) = times ip vs := by
  simp [times, h]

theorem ofClient_cons_self {v : Visit} :
    ofClient v.ip (serve maxRequests periodSeconds buckets (v :: vs)) =
      (v.time, (handle maxRequests periodSeconds v.time v.ip buckets).1) ::
        ofClient v.ip (serve maxRequests periodSeconds (handle maxRequests periodSeconds v.time v.ip buckets).2 vs) := by
  simp [ofClient, serve]

theorem ofClient_cons_of_ne {v : Visit} (h : v.ip ≠ ip) :
    ofClient ip (serve maxRequests periodSeconds buckets (v :: vs)) =
      ofClient ip (serve maxRequests periodSeconds (handle maxRequests periodSeconds v.time v.ip buckets).2 vs) := by
  simp [ofClient, serve, h]

theorem serve_of_lookup {b : TokenBucket ℚ} (h : buckets.lookup ip = some (ofTokenBucket b)) :
    ofClient ip (serve maxRequests periodSeconds buckets vs) =
      b.verdicts (maxRequests : ℚ) (rate maxRequests periodSeconds) (times ip vs) := by
  induction vs generalizing buckets b
  case nil => rfl
  case cons v vs hi =>
    by_cases hv : v.ip = ip
    case pos =>
      subst hv
      have ⟨h₁, h₂⟩ := @handle_of_lookup maxRequests periodSeconds v.ip buckets v.time b h
      rw [ofClient_cons_self, times_cons_self, hi h₂, h₁]
      rfl
    case neg =>
      rw [ofClient_cons_of_ne hv, times_cons_of_ne hv, hi ((lookup_handle_of_ne (Ne.symm hv)).trans h)]

-- The first request of a client finds a bucket that is full.
theorem serve_of_lookup_none (h : buckets.lookup ip = none) (ht : times ip vs = t :: ts) :
    ofClient ip (serve maxRequests periodSeconds buckets vs) =
      (TokenBucket.start (maxRequests : ℚ) t).verdicts (maxRequests : ℚ) (rate maxRequests periodSeconds)
        (t :: ts) := by
  induction vs generalizing buckets
  case nil => contradiction
  case cons v vs hi =>
    by_cases hv : v.ip = ip
    case pos =>
      subst hv
      rw [times_cons_self, List.cons.injEq] at ht
      have ⟨ht, hts⟩ := ht
      have hl : Finmap.lookup v.ip (buckets.insert v.ip (ofTokenBucket (.start (maxRequests : ℚ) t))) =
          some (ofTokenBucket (.start (maxRequests : ℚ) t)) :=
        Finmap.lookup_insert _
      have hs := @serve_of_lookup maxRequests periodSeconds _ _ (v :: vs) _ hl
      rw [times_cons_self, ht, hts] at hs
      rw [← hs, ofClient_cons_self, ofClient_cons_self, ht, handle_of_lookup_none h]
    case neg =>
      rw [times_cons_of_ne hv] at ht
      rw [ofClient_cons_of_ne hv, hi ((lookup_handle_of_ne (Ne.symm hv)).trans h) ht]

-- What a client is told depends on its own requests only.
theorem serve_filter {buckets' : Buckets} (he : buckets.lookup ip = buckets'.lookup ip) :
    (serve maxRequests periodSeconds buckets vs).filter (·.1.ip = ip) =
      serve maxRequests periodSeconds buckets' (vs.filter (·.ip = ip)) := by
  induction vs generalizing buckets buckets'
  case nil => rfl
  case cons v vs hi =>
    by_cases hv : v.ip = ip
    case pos =>
      subst hv
      have hh : (handle maxRequests periodSeconds v.time v.ip buckets).1 =
          (handle maxRequests periodSeconds v.time v.ip buckets').1 := by
        simp only [handle, he]
      have hl : (handle maxRequests periodSeconds v.time v.ip buckets).2.lookup v.ip =
          (handle maxRequests periodSeconds v.time v.ip buckets').2.lookup v.ip := by
        simp only [handle, he, Finmap.lookup_insert]
      simp [serve, hh, hi hl]
    case neg =>
      simp [serve, hv, hi ((lookup_handle_of_ne (Ne.symm hv)).trans he)]

section Run

variable (hm : 1 ≤ maxRequests) (hp : 1 ≤ periodSeconds)

include hm hp in
theorem rate_pos : 0 < rate maxRequests periodSeconds := by
  have : (0 : ℚ) < maxRequests := by exact_mod_cast hm
  have : (0 : ℚ) < periodSeconds := by exact_mod_cast hp
  exact div_pos ‹_› ‹_›

-- A run from the empty table, as one client sees it.
theorem serve_cases :
    (times ip vs = [] ∧ ofClient ip (serve maxRequests periodSeconds ∅ vs) = []) ∨
    ∃ t ts, times ip vs = t :: ts ∧ ofClient ip (serve maxRequests periodSeconds ∅ vs) =
      (TokenBucket.start (maxRequests : ℚ) t).verdicts (maxRequests : ℚ) (rate maxRequests periodSeconds) (t :: ts) := by
  cases ht : times ip vs
  case cons t ts => exact .inr ⟨t, ts, rfl, serve_of_lookup_none (Finmap.lookup_empty _) ht⟩
  case nil =>
    refine .inl ⟨rfl, ?_⟩
    have hf : vs.filter (·.ip = ip) = [] := List.map_eq_nil_iff.mp ht
    rw [ofClient, serve_filter rfl, hf]
    rfl

-- The number of requests of a client that are forwarded from `a` on, for a time of length `t`.
def forwarded (ip : Bytes) (a t : ℚ) (rs : List (Visit × Bool)) : Nat :=
  rs.countP fun r => r.1.ip = ip ∧ r.2 ∧ a ≤ r.1.time ∧ r.1.time ≤ a + t

theorem forwarded_eq_granted :
    forwarded ip a t rs = TokenBucket.granted a t (ofClient ip rs) := by
  rw [forwarded, TokenBucket.granted, ofClient, List.countP_map, List.countP_filter]
  congr 1
  ext r
  simp [Bool.and_comm]

include hm hp

theorem forwarded_le (hs : vs.Pairwise (·.time ≤ ·.time)) (ht : 0 ≤ t) :
    forwarded ip a t (serve maxRequests periodSeconds ∅ vs) ≤
      (maxRequests : ℚ) + t * rate maxRequests periodSeconds := by
  have hr := (rate_pos hm hp).le
  have hc : (0 : ℚ) ≤ maxRequests := by exact_mod_cast zero_le_one.trans hm
  have hz : ((0 : Nat) : ℚ) ≤ maxRequests + t * rate maxRequests periodSeconds := by
    simpa using add_nonneg hc (mul_nonneg ht hr)
  rw [forwarded_eq_granted]
  rcases @serve_cases maxRequests periodSeconds ip vs with ⟨_, he⟩ | ⟨t₀, ts, hts, he⟩ <;> rw [he]
  case inl => simpa [TokenBucket.granted] using hz
  case inr =>
    have hsorted : (t₀ :: ts).Pairwise (· ≤ ·) := by
      rw [← hts]
      exact List.pairwise_map.mpr (hs.filter _)
    have hstart : (t₀ :: t₀ :: ts).Pairwise (· ≤ ·) :=
      List.pairwise_cons.mpr ⟨by simpa using (List.pairwise_cons.mp hsorted).1, hsorted⟩
    have := TokenBucket.granted_le (a := a) (t := t) hc hr hstart (.start hc hr) hz
    simpa using this

theorem forwarded_of_spaced
    (hs : (vs.filter (·.ip = ip)).IsChain fun v w => (periodSeconds : ℚ) / maxRequests ≤ w.time - v.time) :
    ∀ r ∈ serve maxRequests periodSeconds ∅ vs, r.1.ip = ip → r.2 = true := by
  intro r hr hip
  have hmem : (r.1.time, r.2) ∈ ofClient ip (serve maxRequests periodSeconds ∅ vs) :=
    List.mem_map.mpr ⟨r, List.mem_filter.mpr ⟨hr, by simpa using hip⟩, rfl⟩
  have hc : (1 : ℚ) ≤ maxRequests := by exact_mod_cast hm
  have hrate := rate_pos hm hp
  rcases @serve_cases maxRequests periodSeconds ip vs with ⟨_, he⟩ | ⟨t, ts, ht, he⟩ <;> rw [he] at hmem
  case inl => contradiction
  case inr =>
    have hchain : (t :: ts).IsChain fun s t => 1 ≤ (t - s) * rate maxRequests periodSeconds := by
      rw [← ht, times, List.isChain_map]
      refine hs.imp fun v w hd => ?_
      rw [← inv_div] at hd
      exact (inv_le_iff_one_le_mul₀ hrate).mp hd
    exact TokenBucket.verdicts_start_of_spaced hc hchain _ hmem

end Run

-- Within any time, a client gets no more requests forwarded than its bucket holds and is refilled
-- with. A client that is slow enough is never refused, and the other clients do not matter.
theorem serve_bound (hm : 1 ≤ maxRequests) (hp : 1 ≤ periodSeconds) (vs : List Visit)
    (hs : vs.Pairwise (·.time ≤ ·.time)) (ip : Bytes) :
    (∀ a t, 0 ≤ t → forwarded ip a t (serve maxRequests periodSeconds ∅ vs) ≤
      (maxRequests : ℚ) + t * maxRequests / periodSeconds) ∧
    ((vs.filter (·.ip = ip)).IsChain (fun v w => (periodSeconds : ℚ) / maxRequests ≤ w.time - v.time) →
      ∀ r ∈ serve maxRequests periodSeconds ∅ vs, r.1.ip = ip → r.2 = true) ∧
    (serve maxRequests periodSeconds ∅ vs).filter (·.1.ip = ip) =
      serve maxRequests periodSeconds ∅ (vs.filter (·.ip = ip)) := by
  refine ⟨fun a t ht => ?_, forwarded_of_spaced hm hp, serve_filter rfl⟩
  rw [mul_div_assoc]
  exact forwarded_le hm hp hs ht

-- Two clients. The third request of the first one comes too early.
def visits : List Visit :=
  [⟨"1.1.1.1", 0⟩, ⟨"1.1.1.1", 1 / 4⟩, ⟨"2.2.2.2", 1 / 4⟩, ⟨"1.1.1.1", 3 / 8⟩, ⟨"1.1.1.1", 1⟩]

theorem serve_bound_visits :
    (serve 2 1 ∅ visits).map Prod.snd = [true, true, true, false, true] ∧
    forwarded "1.1.1.1" 0 1 (serve 2 1 ∅ visits) ≤ ((2 : Int) : ℚ) + 1 * ((2 : Int) : ℚ) / ((1 : Int) : ℚ) := by
  refine ⟨by decide +kernel, (serve_bound (by decide) (by decide) visits ?_ _).1 0 1 zero_le_one⟩
  decide +kernel

end YNet.RateLimiter
