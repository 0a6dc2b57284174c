import YNet.Security.Theorems.RateLimiter

namespace YNet.RateLimiter

variable {maxRequests periodSeconds : Int} {ip : Bytes} {buckets : Buckets} {vs pre post : List Visit} {v : Visit}

-- The buckets behind some requests.
def behind (maxRequests periodSeconds : Int) : Buckets → List Visit → Buckets
  | buckets, []      => buckets
  | buckets, v :: vs => behind maxRequests periodSeconds (handle maxRequests periodSeconds v.time v.ip buckets).2 vs

theorem serve_append : serve maxRequests periodSeconds buckets (pre ++ post) =
    serve maxRequests periodSeconds buckets pre ++
      serve maxRequests periodSeconds (behind maxRequests periodSeconds buckets pre) post := by
  induction pre generalizing buckets with
  | nil           => rfl
  | cons v pre hi => rw [List.cons_append, serve, serve, hi, List.cons_append, behind]

theorem length_serve : (serve maxRequests periodSeconds buckets vs).length = vs.length := by
  induction vs generalizing buckets with
  | nil          => rfl
  | cons v vs hi => rw [serve, List.length_cons, List.length_cons, hi]

theorem serve_getElem? : (serve maxRequests periodSeconds buckets (pre ++ v :: post))[pre.length]? =
    some (v, (handle maxRequests periodSeconds v.time v.ip (behind maxRequests periodSeconds buckets pre)).1) := by
  rw [serve_append, List.getElem?_append_right (by rw [length_serve]), length_serve, Nat.sub_self, serve]
  rfl

theorem lookup_behind {b : TokenBucket ℚ} (h : buckets.lookup ip = some (ofTokenBucket b)) :
    (behind maxRequests periodSeconds buckets vs).lookup ip =
      some (ofTokenBucket (b.after (maxRequests : ℚ) (rate maxRequests periodSeconds) (times ip vs))) := by
  induction vs generalizing buckets b with
  | nil          => exact h
  | cons v vs hi =>
    by_cases hv : v.ip = ip
    case pos =>
      subst hv
      rw [times_cons_self, TokenBucket.after, behind]
      exact hi (handle_of_lookup h).2
    case neg =>
      rw [times_cons_of_ne hv, behind]
      exact hi ((lookup_handle_of_ne (Ne.symm hv)).trans h)

theorem lookup_behind_none (h : buckets.lookup ip = none) :
    (times ip vs = [] ∧ (behind maxRequests periodSeconds buckets vs).lookup ip = none) ∨
    ∃ t ts, times ip vs = t :: ts ∧ (behind maxRequests periodSeconds buckets vs).lookup ip = some (ofTokenBucket
      ((TokenBucket.start (maxRequests : ℚ) t).after (maxRequests : ℚ) (rate maxRequests periodSeconds) (t :: ts))) := by
  induction vs generalizing buckets with
  | nil          => exact .inl ⟨rfl, h⟩
  | cons v vs hi =>
    by_cases hv : v.ip = ip
    case pos =>
      subst hv
      refine .inr ⟨_, _, times_cons_self, ?_⟩
      rw [behind, handle_of_lookup_none h, TokenBucket.after]
      exact lookup_behind (handle_of_lookup (Finmap.lookup_insert _)).2
    case neg =>
      rw [times_cons_of_ne hv, behind]
      exact hi ((lookup_handle_of_ne (Ne.symm hv)).trans h)

-- The requests of a client that have been forwarded from `a` on.
def forwardedFrom (ip : Bytes) (a : ℚ) (rs : List (Visit × Bool)) : Nat :=
  rs.countP fun r => r.1.ip = ip ∧ r.2 ∧ a ≤ r.1.time

theorem forwardedFrom_eq : forwardedFrom ip a rs = TokenBucket.grantedFrom a (ofClient ip rs) := by
  rw [forwardedFrom, TokenBucket.grantedFrom, ofClient, List.countP_map, List.countP_filter]
  congr 1
  ext r
  simp [Bool.and_comm]

section Run

variable (hm : 1 ≤ maxRequests) (hp : 1 ≤ periodSeconds)

include hm hp

theorem handle_behind_iff (hs : (pre ++ [v]).Pairwise (·.time ≤ ·.time)) :
    (handle maxRequests periodSeconds v.time v.ip (behind maxRequests periodSeconds ∅ pre)).1 = true ↔
      ∀ a ≤ v.time, (forwardedFrom v.ip a (serve maxRequests periodSeconds ∅ pre) : ℚ) + 1 ≤
        maxRequests + (v.time - a) * rate maxRequests periodSeconds := by
  have hr := (rate_pos hm hp).le
  have hc : (0 : ℚ) ≤ maxRequests := by exact_mod_cast zero_le_one.trans hm
  simp only [forwardedFrom_eq]
  rcases @lookup_behind_none maxRequests periodSeconds v.ip ∅ pre (Finmap.lookup_empty _) with ⟨ht, hl⟩ | ⟨t, ts, ht, hl⟩
  case inl =>
    have hnil : ofClient v.ip (serve maxRequests periodSeconds ∅ pre) = [] := by
      rcases @serve_cases maxRequests periodSeconds v.ip pre with ⟨_, he⟩ | ⟨t, ts, hts, _⟩
      · exact he
      · exact absurd (ht.symm.trans hts) (by simp)
    have hx : TokenBucket.Exact (maxRequests : ℚ) (rate maxRequests periodSeconds) [] (.start (maxRequests : ℚ) v.time) :=
      .start hc hr
    rw [hnil, handle_of_lookup_none hl, (handle_of_lookup (Finmap.lookup_insert _)).1]
    exact hx.granted_iff hr le_rfl
  case inr =>
    have hv : ofClient v.ip (serve maxRequests periodSeconds ∅ pre) = (TokenBucket.start (maxRequests : ℚ) t).verdicts
        (maxRequests : ℚ) (rate maxRequests periodSeconds) (t :: ts) :=
      serve_of_lookup_none (Finmap.lookup_empty _) ht
    have htimes : (t :: ts ++ [v.time]).Pairwise (· ≤ ·) := by
      have hmap := (hs.filter (·.ip = v.ip)).map Visit.time fun _ _ => id
      rw [List.filter_append, List.map_append] at hmap
      rw [← ht]
      simpa [times] using hmap
    obtain ⟨hsorted, _, hle⟩ := List.pairwise_append.mp htimes
    have hx : TokenBucket.Exact (maxRequests : ℚ) (rate maxRequests periodSeconds) []
        (.start (maxRequests : ℚ) t) := .start hc hr
    have hstart : (t :: t :: ts).Pairwise (· ≤ ·) :=
      List.pairwise_cons.mpr ⟨List.forall_mem_cons.mpr ⟨le_rfl, (List.pairwise_cons.mp hsorted).1⟩, hsorted⟩
    have hx := hx.after hc hr hstart
    rw [List.nil_append, ← hv] at hx
    rw [(handle_of_lookup hl).1]
    exact hx.granted_iff hr (TokenBucket.last_after_le (hle _ List.mem_cons_self _ List.mem_cons_self)
      fun t ht => hle t ht _ List.mem_cons_self)

-- A request is forwarded exactly if its client has a token left in the budget of every window that ends with it:
-- the limiter refuses no more than it has to.
theorem serve_forwards_iff (hs : (pre ++ v :: post).Pairwise (·.time ≤ ·.time)) :
    (serve maxRequests periodSeconds ∅ (pre ++ v :: post))[pre.length]? = some (v, true) ↔
      ∀ a ≤ v.time, (forwardedFrom v.ip a (serve maxRequests periodSeconds ∅ pre) : ℚ) + 1 ≤
        maxRequests + (v.time - a) * maxRequests / periodSeconds := by
  have hs : (pre ++ [v]).Pairwise (·.time ≤ ·.time) :=
    hs.sublist (List.Sublist.append_left (List.singleton_sublist.mpr List.mem_cons_self) pre)
  rw [serve_getElem?, Option.some_inj, Prod.mk.injEq, and_iff_right rfl, handle_behind_iff hm hp hs]
  simp only [mul_div_assoc, rate]

end Run

-- The fourth request of `visits` is refused, as two have been forwarded within three eighths of a second.
theorem serve_forwards_iff_visits : (serve 2 1 ∅ visits)[3]?.map Prod.snd = some false ∧
    ¬∀ a ≤ (3 / 8 : ℚ), (forwardedFrom "1.1.1.1" a (serve 2 1 ∅ (visits.take 3)) : ℚ) + 1 ≤
      ((2 : Int) : ℚ) + (3 / 8 - a) * ((2 : Int) : ℚ) / ((1 : Int) : ℚ) := by
  have h := @serve_forwards_iff 2 1 (visits.take 3) (visits.drop 4) ⟨"1.1.1.1", 3 / 8⟩
    (by decide) (by decide) (by decide +kernel)
  refine ⟨by decide +kernel, fun hb => absurd (congrArg (Option.map Prod.snd) (h.mpr hb)) ?_⟩
  decide +kernel

end YNet.RateLimiter
