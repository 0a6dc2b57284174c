import Mathlib

-- Token buckets over an ordered field of times. The bucket is refilled at a constant rate up to its
-- capacity, and each request that is granted takes one token out of it.

@[ext]
structure TokenBucket (K : Type) where
  tokens : K
  last   : K

namespace TokenBucket

variable {K : Type} [Field K] [LinearOrder K]

def start (capacity now : K) : TokenBucket K :=
  ⟨capacity, now⟩

def refill (capacity rate now : K) (b : TokenBucket K) : TokenBucket K :=
  ⟨min capacity (b.tokens + (now - b.last) * rate), now⟩

-- Whether a request is granted, and the bucket behind it.
def take (capacity rate now : K) (b : TokenBucket K) : Bool × TokenBucket K :=
  let b := b.refill capacity rate now
  if 1 ≤ b.tokens then (true, { b with tokens := b.tokens - 1 }) else (false, b)

def verdicts (capacity rate : K) : TokenBucket K → List K → List (K × Bool)
  | _, []           => []
  | b, now :: times =>
    (now, (b.take capacity rate now).1) :: verdicts capacity rate (b.take capacity rate now).2 times

-- The number of requests that are granted from `a` on, for a time of length `t`.
def granted (a t : K) (vs : List (K × Bool)) : Nat :=
  vs.countP fun v => v.2 ∧ a ≤ v.1 ∧ v.1 ≤ a + t

section Take

variable {capacity rate now : K} {b : TokenBucket K}

@[simp]
theorem take_last : (b.take capacity rate now).2.last = now := by
  simp only [take]
  split <;> rfl

theorem take_cases :
    (1 ≤ (b.refill capacity rate now).tokens ∧ b.take capacity rate now =
      (true, ⟨(b.refill capacity rate now).tokens - 1, now⟩)) ∨
    ((b.refill capacity rate now).tokens < 1 ∧ b.take capacity rate now =
      (false, ⟨(b.refill capacity rate now).tokens, now⟩)) := by
  by_cases h : 1 ≤ (b.refill capacity rate now).tokens
  case pos => exact .inl ⟨h, if_pos h⟩
  case neg => exact .inr ⟨not_le.mp h, if_neg h⟩

end Take

variable [IsStrictOrderedRing K] {capacity rate a t : K} {b : TokenBucket K}

-- The tokens never run below zero, and a bucket never holds more than its capacity.
structure Valid (capacity : K) (b : TokenBucket K) : Prop where
  nonneg : 0 ≤ b.tokens
  le     : b.tokens ≤ capacity

omit [IsStrictOrderedRing K] in
theorem Valid.start (h : 0 ≤ capacity) : (start capacity now).Valid capacity :=
  ⟨h, le_rfl⟩

theorem Valid.refill (hc : 0 ≤ capacity) (hr : 0 ≤ rate) (hl : b.last ≤ now) (h : b.Valid capacity) :
    (b.refill capacity rate now).Valid capacity where
  nonneg := le_min hc <| add_nonneg h.nonneg <| mul_nonneg (sub_nonneg.mpr hl) hr
  le     := min_le_left ..

theorem Valid.take (hc : 0 ≤ capacity) (hr : 0 ≤ rate) (hl : b.last ≤ now) (h : b.Valid capacity) :
    (b.take capacity rate now).2.Valid capacity := by
  have hv := h.refill hc hr hl
  rcases @take_cases _ _ _ capacity rate now b with ⟨ht, he⟩ | ⟨_, he⟩ <;> rw [he]
  case inl => exact ⟨sub_nonneg.mpr ht, (sub_le_self _ zero_le_one).trans hv.le⟩
  case inr => exact ⟨hv.nonneg, hv.le⟩

-- After `n` requests have been granted in a window that starts at `a`, the bucket still holds what
-- has been refilled since then and not been taken.
structure Spent (capacity rate a : K) (n : Nat) (b : TokenBucket K) : Prop where
  valid   : b.Valid capacity
  before  : b.last < a → n = 0
  balance : n + b.tokens ≤ capacity + (max a b.last - a) * rate

theorem Spent.start (h : 0 ≤ capacity) (hr : 0 ≤ rate) : Spent capacity rate a 0 (start capacity now) where
  valid   := .start h
  before  := fun _ => rfl
  balance := by
    have : 0 ≤ (max a now - a) * rate := mul_nonneg (sub_nonneg.mpr (le_max_left ..)) hr
    simpa [TokenBucket.start] using this

variable {n : Nat}

theorem Spent.refill (hr : 0 ≤ rate) (hl : b.last ≤ now) (h : Spent capacity rate a n b) :
    n + (b.refill capacity rate now).tokens ≤ capacity + (max a now - a) * rate := by
  have ⟨_, hb, hn⟩ := h
  cases lt_or_ge b.last a
  case inl ha =>
    have : 0 ≤ (max a now - a) * rate := mul_nonneg (sub_nonneg.mpr (le_max_left ..)) hr
    have : (b.refill capacity rate now).tokens ≤ capacity := min_le_left ..
    rw [hb ha, Nat.cast_zero]
    linarith
  case inr ha =>
    have : (b.refill capacity rate now).tokens ≤ b.tokens + (now - b.last) * rate := min_le_right ..
    rw [max_eq_right ha] at hn
    rw [max_eq_right (ha.trans hl)]
    linarith

-- The number of requests granted in the window grows when the request is granted and lies in it.
theorem Spent.take (hc : 0 ≤ capacity) (hr : 0 ≤ rate) (hl : b.last ≤ now) (h : Spent capacity rate a n b)
    (hm : m ≤ n + if (b.take capacity rate now).1 ∧ a ≤ now then 1 else 0) :
    Spent capacity rate a m (b.take capacity rate now).2 := by
  have hs := h.refill hr hl
  have hv := h.valid.take hc hr hl
  have hcast : (m : K) ≤ n + if (b.take capacity rate now).1 ∧ a ≤ now then 1 else 0 := by
    exact_mod_cast hm
  refine ⟨hv, fun ha => ?_, ?_⟩
  case refine_1 =>
    rw [take_last] at ha
    have := h.before (hl.trans_lt ha)
    rw [if_neg fun h => absurd h.2 (not_le.mpr ha)] at hm
    omega
  case refine_2 =>
    rw [take_last]
    rcases @take_cases _ _ _ capacity rate now b with ⟨_, he⟩ | ⟨_, he⟩ <;> rw [he] at hcast ⊢
    case inl =>
      have : (if (true : Bool) ∧ a ≤ now then (1 : K) else 0) ≤ 1 := by split <;> simp
      simp only at *
      linarith
    case inr =>
      simp only [Bool.false_eq_true, false_and, if_false, add_zero] at hcast
      simp only
      linarith

theorem granted_le (hc : 0 ≤ capacity) (hr : 0 ≤ rate) {times : List K}
    (hs : (b.last :: times).Pairwise (· ≤ ·)) (h : Spent capacity rate a n b)
    (hn : n ≤ capacity + t * rate) :
    n + granted a t (b.verdicts capacity rate times) ≤ capacity + t * rate := by
  induction times generalizing n b
  case nil => simpa [granted, verdicts] using hn
  case cons now times hi =>
    have ⟨hl, hs⟩ := List.pairwise_cons.mp hs
    have hnow := hl now List.mem_cons_self
    have hs : ((b.take capacity rate now).2.last :: times).Pairwise (· ≤ ·) := by rwa [take_last]
    simp only [verdicts, granted, List.countP_cons]
    by_cases hg : (b.take capacity rate now).1 ∧ a ≤ now ∧ now ≤ a + t
    case neg =>
      simp only [hg, decide_false, Bool.false_eq_true, if_false, add_zero]
      exact hi hs (h.take hc hr hnow (Nat.le_add_right ..)) hn
    case pos =>
      have hspent := h.take (m := n + 1) hc hr hnow (by simp [hg.1, hg.2.1])
      have hle : ((n + 1 : Nat) : K) ≤ capacity + t * rate := by
        have hb := hspent.balance
        rw [take_last, max_eq_right hg.2.1] at hb
        have := hspent.valid.nonneg
        have : (now - a) * rate ≤ t * rate := mul_le_mul_of_nonneg_right (by linarith [hg.2.2]) hr
        linarith
      have := hi hs hspent hle
      simp only [granted] at this
      simp only [hg, and_self, decide_true, if_true]
      push_cast at this ⊢
      linarith

-- Requests that keep a distance in which a whole token is refilled are always granted.
theorem verdicts_of_spaced (hc : 1 ≤ capacity) {times : List K}
    (hs : (b.last :: times).IsChain fun s t => 1 ≤ (t - s) * rate) (h : b.Valid capacity) :
    ∀ v ∈ b.verdicts capacity rate times, v.2 = true := by
  induction times generalizing b
  case nil => exact fun _ h => absurd h List.not_mem_nil
  case cons now times hi =>
    have ⟨hd, hs⟩ := List.isChain_cons_cons.mp hs
    have hfull : 1 ≤ (b.refill capacity rate now).tokens :=
      le_min hc (hd.trans (le_add_of_nonneg_left h.nonneg))
    have hl : (b.refill capacity rate now).Valid capacity :=
      ⟨zero_le_one.trans hfull, min_le_left ..⟩
    have he : b.take capacity rate now = (true, ⟨(b.refill capacity rate now).tokens - 1, now⟩) :=
      if_pos hfull
    rw [verdicts, List.forall_mem_cons, he]
    exact ⟨rfl, hi hs ⟨sub_nonneg.mpr hfull, (sub_le_self _ zero_le_one).trans hl.le⟩⟩

theorem verdicts_start_of_spaced (hc : 1 ≤ capacity) {times : List K}
    (hs : (now :: times).IsChain fun s t => 1 ≤ (t - s) * rate) :
    ∀ v ∈ (start capacity now).verdicts capacity rate (now :: times), v.2 = true := by
  have he : (start capacity now).take capacity rate now = (true, ⟨capacity - 1, now⟩) := by
    simp [take, refill, start, hc]
  rw [verdicts, List.forall_mem_cons, he]
  exact ⟨rfl, verdicts_of_spaced hc hs ⟨sub_nonneg.mpr hc, sub_le_self _ zero_le_one⟩⟩

section Exact

-- The bucket behind some requests.
def after (capacity rate : K) : TokenBucket K → List K → TokenBucket K
  | b, []           => b
  | b, now :: times => after capacity rate (b.take capacity rate now).2 times

-- The number of requests that are granted from `a` on.
def grantedFrom (a : K) (vs : List (K × Bool)) : Nat :=
  vs.countP fun v => v.2 ∧ a ≤ v.1

variable {times : List K} {vs : List (K × Bool)}

omit [IsStrictOrderedRing K] in
theorem after_append : b.after capacity rate (times ++ times') =
    (b.after capacity rate times).after capacity rate times' := by
  induction times generalizing b with
  | nil               => rfl
  | cons now times hi => rw [List.cons_append, after, hi, after]

omit [IsStrictOrderedRing K] in
theorem last_after_le (h : b.last ≤ now) (ht : ∀ t ∈ times, t ≤ now) : (b.after capacity rate times).last ≤ now := by
  induction times generalizing b with
  | nil             => exact h
  | cons t times hi =>
    rw [List.forall_mem_cons] at ht
    exact hi (by rw [take_last]; exact ht.1) ht.2

omit [Field K] [IsStrictOrderedRing K] in
theorem grantedFrom_append : grantedFrom a (vs ++ vs') = grantedFrom a vs + grantedFrom a vs' :=
  List.countP_append

-- What is in the bucket is what each window leaves of its budget, and all that one of them leaves.
structure Exact (capacity rate : K) (vs : List (K × Bool)) (b : TokenBucket K) : Prop where
  spent : ∀ a, Spent capacity rate a (grantedFrom a vs) b
  tight : ∃ a ≤ b.last, grantedFrom a vs + b.tokens = capacity + (b.last - a) * rate

theorem Exact.start (hc : 0 ≤ capacity) (hr : 0 ≤ rate) : Exact capacity rate [] (start capacity now) where
  spent _ := .start hc hr
  tight   := ⟨now, le_rfl, by simp [grantedFrom, TokenBucket.start]⟩

-- The window that leaves the least when the bucket has been refilled. If the bucket is full, it has just begun.
theorem Exact.tight_refill (h : Exact capacity rate vs b) (hr : 0 ≤ rate) (hl : b.last ≤ now) : ∃ a ≤ now,
    grantedFrom a vs + (b.refill capacity rate now).tokens = capacity + (now - a) * rate := by
  rcases min_cases capacity (b.tokens + (now - b.last) * rate) with ⟨he, _⟩ | ⟨he, _⟩
  · refine ⟨now, le_rfl, ?_⟩
    have hn := (h.spent now).refill hr hl
    have hcount : (0 : K) ≤ grantedFrom now vs := Nat.cast_nonneg _
    simp only [refill, he, max_self, sub_self, zero_mul, add_zero] at hn ⊢
    linarith
  · obtain ⟨a, ha, ht⟩ := h.tight
    refine ⟨a, ha.trans hl, ?_⟩
    simp only [refill, he]
    linarith

omit [Field K] [IsStrictOrderedRing K] in
theorem grantedFrom_singleton {ok : Bool} : grantedFrom a [(now, ok)] = if ok ∧ a ≤ now then 1 else 0 := by
  simp [grantedFrom, List.countP_cons]

theorem Exact.take (h : Exact capacity rate vs b) (hc : 0 ≤ capacity) (hr : 0 ≤ rate) (hl : b.last ≤ now) :
    Exact capacity rate (vs ++ [(now, (b.take capacity rate now).1)]) (b.take capacity rate now).2 where
  spent a := by
    refine (h.spent a).take hc hr hl ?_
    rw [grantedFrom_append, grantedFrom_singleton]
  tight   := by
    obtain ⟨a, ha, ht⟩ := h.tight_refill hr hl
    refine ⟨a, by rwa [take_last], ?_⟩
    rw [grantedFrom_append, grantedFrom_singleton, take_last]
    rcases @take_cases _ _ _ capacity rate now b with ⟨_, he⟩ | ⟨_, he⟩ <;> rw [he]
    · simp only [true_and, if_pos ha, Nat.cast_add, Nat.cast_one]
      linarith
    · simpa using ht

theorem Exact.after (h : Exact capacity rate vs b) (hc : 0 ≤ capacity) (hr : 0 ≤ rate)
    (hs : (b.last :: times).Pairwise (· ≤ ·)) :
    Exact capacity rate (vs ++ b.verdicts capacity rate times) (b.after capacity rate times) := by
  induction times generalizing vs b with
  | nil               => simpa [verdicts, TokenBucket.after] using h
  | cons now times hi =>
    obtain ⟨hl, hs⟩ := List.pairwise_cons.mp hs
    have := hi (h.take hc hr (hl now List.mem_cons_self)) (by rwa [take_last])
    rwa [List.append_assoc] at this

-- A request is granted exactly if the windows that end with it have a token left in their budgets.
theorem Exact.granted_iff (h : Exact capacity rate vs b) (hr : 0 ≤ rate) (hl : b.last ≤ now) :
    (b.take capacity rate now).1 = true ↔ ∀ a ≤ now, (grantedFrom a vs : K) + 1 ≤ capacity + (now - a) * rate := by
  constructor
  case mp =>
    intro ht a ha
    have hn := (h.spent a).refill hr hl
    rw [max_eq_right ha] at hn
    rcases @take_cases _ _ _ capacity rate now b with ⟨h1, _⟩ | ⟨_, he⟩
    · linarith
    · simp [he] at ht
  case mpr =>
    intro hall
    obtain ⟨a, ha, ht⟩ := h.tight_refill hr hl
    have hb := hall a ha
    rcases @take_cases _ _ _ capacity rate now b with ⟨_, he⟩ | ⟨h1, _⟩
    · rw [he]
    · linarith

end Exact

end TokenBucket
