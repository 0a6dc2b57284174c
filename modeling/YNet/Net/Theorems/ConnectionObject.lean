import YNet.Net.ConnectionObject

open Ownership

namespace YNet.ConnectionObject

variable {c d : ConnectionObject}

def owned (c : ConnectionObject) : Finset Resource :=
  (if c.clientFd = -1 then ∅ else {.fd c.clientFd}) ∪ c.ssl.elim ∅ fun ssl => {.ssl ssl}

-- A TLS session comes with a descriptor.
def Tidy (c : ConnectionObject) : Prop :=
  c.clientFd = -1 → c.ssl = none

-- The accesses of an operation that acquires nothing, and what the object owns afterwards.
structure Handles (c : ConnectionObject) (es : List (Event Resource)) (O : Finset Resource) : Prop where
  proper : Proper c.owned es
  after  : after c.owned es = O
  keeps  : ∀ r, .acquire r ∉ es

theorem Handles.uses {l : List (Event Resource)} (h : ∀ e ∈ l, ∃ r ∈ c.owned, e = .use r) : c.Handles l c.owned := by
  induction l with
  | nil         => exact ⟨trivial, rfl, by simp⟩
  | cons e l hi =>
    have ⟨⟨r, hr, he⟩, h⟩ := List.forall_mem_cons.mp h
    have ⟨h₁, h₂, h₃⟩ := hi h
    rw [he]
    exact ⟨⟨hr, h₁⟩, h₂, by simpa using h₃⟩

theorem Handles.append {l k : List (Event Resource)} (h₁ : c.Handles l c.owned) (h₂ : c.Handles k O) :
    c.Handles (l ++ k) O where
  proper  := proper_append.mpr ⟨h₁.proper, h₁.after.symm ▸ h₂.proper⟩
  after   := by rw [after_append, h₁.after, h₂.after]
  keeps r := by simpa using ⟨h₁.keeps r, h₂.keeps r⟩

theorem fd_mem_owned (h : c.clientFd ≠ -1) : .fd c.clientFd ∈ c.owned := by
  simp [owned, h]

theorem ssl_mem_owned (h : c.ssl = some p) : .ssl p ∈ c.owned := by
  simp [owned, h]

theorem uses_sslCall (ht : c.Tidy) (hs : c.ssl = some p) : ∀ e ∈ c.sslCall p, ∃ r ∈ c.owned, e = .use r := by
  have hfd : c.clientFd ≠ -1 := fun h => by simp [ht h] at hs
  simpa [sslCall] using ⟨ssl_mem_owned hs, fd_mem_owned hfd⟩

theorem handles_transfer (ht : c.Tidy) : c.Handles c.transfer c.owned := by
  unfold transfer
  split
  case isTrue     => exact .uses (by simp)
  case isFalse hc =>
    cases hs : c.ssl with
    | some p => exact .uses (uses_sslCall ht hs)
    | none     => exact .uses (by simpa using fd_mem_owned hc)

theorem handles_rounds (ht : c.Tidy) (hs : c.ssl = some p) : c.Handles (c.rounds p attempts) c.owned := by
  have hfd : c.clientFd ≠ -1 := fun h => by simp [ht h] at hs
  have hcall : c.Handles (c.sslCall p) c.owned := .uses (uses_sslCall ht hs)
  fun_induction rounds c p attempts with
  | case1         => exact .uses (by simp)
  | case2         => exact hcall
  | case3 rest hi => exact hcall.append (.append (l := [_]) (.uses (by simpa using fd_mem_owned hfd)) hi)
  | case4         => exact hcall.append (.uses (by simpa using fd_mem_owned hfd))

theorem handles_handshake (ht : c.Tidy) : c.Handles (c.handshake attempts) c.owned := by
  unfold handshake
  cases hs : c.ssl with
  | none     => exact .uses (by simp)
  | some p => exact handles_rounds ht hs

theorem handles_shutdown (ht : c.Tidy) (hs : c.ssl = some p) : c.Handles (c.shutdown p waits answered) c.owned := by
  have hfd : c.clientFd ≠ -1 := fun h => by simp [ht h] at hs
  have hcall : c.Handles (c.sslCall p) c.owned := .uses (uses_sslCall ht hs)
  refine hcall.append ?_
  cases waits with
  | false => exact .uses (by simp)
  | true  =>
    refine .append (l := [_]) (.uses (by simpa using fd_mem_owned hfd)) ?_
    cases answered with
    | false => exact .uses (l := []) (by simp)
    | true  => exact hcall

theorem handles_release (hc : c.clientFd ≠ -1) (hs : c.ssl = none) : c.Handles [.release (.fd c.clientFd)] ∅ where
  proper  := ⟨fd_mem_owned hc, trivial⟩
  after   := by simp [owned, hc, hs, Event.after]
  keeps   := by simp

theorem handles_release_both (hc : c.clientFd ≠ -1) (hs : c.ssl = some p) :
    c.Handles [.release (.ssl p), .release (.fd c.clientFd)] ∅ ∧
    c.Handles [.release (.fd c.clientFd), .release (.ssl p)] ∅ := by
  have ho : c.owned = {.fd c.clientFd, .ssl p} := by simp [owned, hc, hs]
  refine ⟨⟨?_, ?_, by simp⟩, ⟨?_, ?_, by simp⟩⟩
  · simp [ho, Event.Proper, Event.after]
  · have hp : (.ssl p : Resource) ∉ ({.fd c.clientFd} : Finset Resource) := by simp
    rw [ho, after_cons, Event.after, Finset.pair_comm, Finset.erase_insert hp]
    simp [Event.after]
  · simp [ho, Event.Proper, Event.after]
  · simp [ho, Event.after]

theorem owned_of_none (hc : c.clientFd = -1) (hs : c.ssl = none) : c.owned = ∅ := by
  simp [owned, hc, hs]

theorem handles_close (ht : c.Tidy) (h : c.close waits answered = (es, c')) :
    c.Handles es c'.owned ∧ c'.Tidy ∧ c'.owned = ∅ := by
  unfold close at h
  split at h
  case isTrue hc =>
    cases h
    exact ⟨.uses (by simp), ht, owned_of_none hc (ht hc)⟩
  case isFalse hc =>
    cases h
    have ho : ({ c with clientFd := -1, ssl := none } : ConnectionObject).owned = ∅ := owned_of_none rfl rfl
    refine ⟨?_, fun _ => rfl, ho⟩
    rw [ho]
    cases hs : c.ssl with
    | none     => exact handles_release hc hs
    | some p =>
      simp only [List.append_assoc]
      exact (handles_shutdown ht hs).append (handles_release_both hc hs).1

theorem handles_destroy (ht : c.Tidy) : c.Handles (c.destroy waits answered) ∅ := by
  unfold destroy
  split
  case isTrue =>
    have ⟨h, _, ho⟩ := handles_close ht (Prod.mk.eta (p := c.close waits answered)).symm
    exact ho ▸ h
  case isFalse hc =>
    have ho := owned_of_none (not_not.mp hc) (ht (not_not.mp hc))
    exact ⟨trivial, ho, by simp⟩

theorem handles_overwrite (ht : c.Tidy) : c.Handles c.overwrite ∅ := by
  unfold overwrite
  by_cases hc : c.clientFd = -1
  case pos =>
    have ho := owned_of_none hc (ht hc)
    simp only [ht hc, hc, ne_eq, not_true, if_false, List.append_nil]
    exact ⟨trivial, ho, by simp⟩
  case neg =>
    rw [if_pos hc]
    cases hs : c.ssl with
    | none     => exact handles_release hc hs
    | some p => exact (handles_release_both hc hs).2

namespace Objects

variable {s s' : Objects} {es : List (Event Resource)} {i j : Nat}

def own (s : Objects) (i : Nat) : Finset Resource :=
  (s.objects i).elim ∅ owned

structure Inv (s : Objects) : Prop where
  owned : Owned s.held s.own
  tidy  : ∀ i c, s.objects i = some c → c.Tidy

theorem own_of_some (h : s.objects i = some c) : s.own i = c.owned := by
  simp [own, h]

theorem own_of_none (h : s.objects i = none) : s.own i = ∅ := by
  simp [own, h]

theorem own_access {c' : Option ConnectionObject} :
    (s.access es i c').own = Function.update s.own i (c'.elim ∅ ConnectionObject.owned) := by
  funext k
  by_cases hk : k = i
  case pos => subst hk; simp [own, access]
  case neg => simp [own, access, hk]

-- An object is accessed, and another one that owns what is left takes its place.
theorem Inv.access {c' : Option ConnectionObject} (h : s.Inv) (hp : Proper (s.own i) es)
    (hf : ∀ r, .acquire r ∈ es → r ∉ s.held) (ho : c'.elim ∅ ConnectionObject.owned = after (s.own i) es)
    (ht : ∀ c ∈ c', c.Tidy) : Proper s.held es ∧ (s.access es i c').Inv := by
  have ⟨h₁, h₂⟩ := h.owned.handle hp hf
  refine ⟨h₁, ⟨?_, fun k c hk => ?_⟩⟩
  · rw [own_access, ho]
    exact h₂
  · by_cases hki : k = i
    case pos => exact ht c (by simpa [Objects.access, hki] using hk)
    case neg => exact h.tidy k c (by simpa [Objects.access, hki] using hk)

theorem own_move {ip : Bytes} (hij : i ≠ j) (hj : s.objects j = some c) :
    (s.move es i j c ip).own = Function.update (Function.update s.own i (s.own j)) j ∅ := by
  have hm : (c.movedFrom ip).owned = ∅ := owned_of_none rfl rfl
  funext k
  by_cases hkj : k = j
  case pos => simp [own, move, hkj, hm]
  case neg =>
    by_cases hki : k = i
    case pos => simp [own, move, hki, hij, hj]
    case neg => simp [own, move, hkj, hki]

theorem Inv.move {ip : Bytes} (h : s.Inv) (hij : i ≠ j) (hi : s.own i = ∅) (hj : s.objects j = some c) :
    (s.move [] i j c ip).Inv where
  owned := by
    rw [own_move hij hj]
    exact h.owned.transfer hij hi
  tidy k d hk := by
    by_cases hkj : k = j
    case pos =>
      cases (show some (c.movedFrom ip) = some d by simpa [Objects.move, hkj] using hk)
      exact fun _ => rfl
    case neg =>
      by_cases hki : k = i
      case pos =>
        cases (show some c = some d by simpa [Objects.move, hki, hij] using hk)
        exact h.tidy j c hj
      case neg => exact h.tidy k d (by simpa [Objects.move, hkj, hki] using hk)

theorem Inv.handles (h : s.Inv) (c' : Option ConnectionObject) (hi : s.objects i = some c) (hh : c.Handles es O)
    (ho : c'.elim ∅ ConnectionObject.owned = O) (ht : ∀ c ∈ c', c.Tidy) :
    Proper s.held es ∧ (s.access es i c').Inv := by
  refine h.access ?_ (fun r hr => absurd hr (hh.keeps r)) ?_ ht
  · rw [own_of_some hi]
    exact hh.proper
  · rw [own_of_some hi, ho, hh.after]

theorem Inv.construct {fd : Int} {ip : Bytes} {port : UInt16} (h : s.Inv) (hi : s.objects i = none) (hfd : fd ≠ -1)
    (hn : .fd fd ∉ s.held) : Proper s.held [.acquire (.fd fd)] ∧
      (s.access [.acquire (.fd fd)] i (some { clientFd := fd, clientIp := ip, clientPort := port })).Inv := by
  refine h.access ?_ (by simpa using hn) ?_ (by simp [Tidy])
  · simp [own_of_none hi, Event.Proper]
  · simp [own_of_none hi, Event.after, ConnectionObject.owned, hfd]

theorem Inv.setSSL {p : Nat} (h : s.Inv) (hi : s.objects i = some c) (hfd : c.clientFd ≠ -1) (hs : c.ssl = none)
    (hn : .ssl p ∉ s.held) : Proper s.held [.acquire (.ssl p)] ∧
      (s.access [.acquire (.ssl p)] i (some (c.setSSL p))).Inv := by
  refine h.access ⟨fun hm => hn (h.owned.subset i hm), trivial⟩ (by simpa using hn) ?_ ?_
  · rw [own_of_some hi]
    simp [Event.after, ConnectionObject.owned, ConnectionObject.setSSL, hfd, hs, Finset.pair_comm]
  · simpa [Tidy, ConnectionObject.setSSL] using hfd

theorem Inv.moveAssign {ip : Bytes} (h : s.Inv) (hij : i ≠ j) (hi : s.objects i = some d) (hj : s.objects j = some c) :
    Proper s.held d.overwrite ∧ (s.move d.overwrite i j c ip).Inv := by
  -- The object that is overwritten is left with nothing before it takes over the other one.
  have ⟨h₁, h₂⟩ := h.handles none hi (handles_overwrite (h.tidy _ _ hi)) rfl (by simp)
  have hi' : (s.access d.overwrite i none).objects i = none := Function.update_self ..
  have hj' : (s.access d.overwrite i none).objects j = some c := by simpa [Objects.access, hij.symm] using hj
  have he : (s.access d.overwrite i none).move [] i j c ip = s.move d.overwrite i j c ip := by
    simp [Objects.move, Objects.access]
  exact ⟨h₁, he ▸ h₂.move hij (own_of_none hi') hj'⟩

theorem Inv.step (h : s.Inv) (hs : Step s es s') : Proper s.held es ∧ s'.Inv := by
  cases hs with
  | construct hi hfd hn     => exact h.construct hi hfd hn
  | setSSL hi hfd hs hn     => exact h.setSSL hi hfd hs hn
  | transfer hi             => exact h.handles _ hi (handles_transfer (h.tidy _ _ hi)) rfl (by simpa using h.tidy _ _ hi)
  | handshake hi            => exact h.handles _ hi (handles_handshake (h.tidy _ _ hi)) rfl (by simpa using h.tidy _ _ hi)
  | close hi hc             =>
    have ⟨hh, ht, _⟩ := handles_close (h.tidy _ _ hi) hc
    exact h.handles _ hi hh rfl (by simpa using ht)
  | destroy hi              => exact h.handles none hi (handles_destroy (h.tidy _ _ hi)) rfl (by simp)
  | moveConstruct hi hj     =>
    refine ⟨trivial, h.move (fun he => ?_) (own_of_none hi) hj⟩
    simp [← he, hi] at hj
  | moveAssign hij hi hj    => exact h.moveAssign hij hi hj
  | selfAssign              => exact ⟨trivial, h⟩

theorem held_step (hs : Step s es s') : s'.held = after s.held es := by
  cases hs <;> rfl

theorem Inv.start : Objects.start.Inv where
  owned := .empty
  tidy  := by simp [Objects.start]

theorem Inv.of_run (h : Run Step .start tr s) : Proper ∅ tr.flatten ∧ s.held = after ∅ tr.flatten ∧ s.Inv := by
  refine h.history (I := fun tr s => Proper ∅ tr.flatten ∧ s.held = after ∅ tr.flatten ∧ s.Inv)
    ⟨trivial, rfl, .start⟩ fun tr s es s' _ hs ⟨hp, hh, hi⟩ => ?_
  have ⟨h₁, h₂⟩ := hi.step hs
  rw [List.flatten_append, List.flatten_singleton, proper_append, after_append, ← hh]
  exact ⟨⟨hp, h₁⟩, held_step hs, h₂⟩

-- Only what is in use is used or released, everything is released in the end, and no descriptor has
-- two objects.
theorem owned_linearly (h : Run Step .start tr s) :
    Proper ∅ tr.flatten ∧ (∀ r, tr.flatten.count (.release r) ≤ tr.flatten.count (.acquire r)) ∧
    (∀ i j c d, s.objects i = some c → s.objects j = some d → c.clientFd = d.clientFd → c.clientFd ≠ -1 → i = j) ∧
    ((∀ i, s.objects i = none) → ∀ r, tr.flatten.count (.release r) = tr.flatten.count (.acquire r)) := by
  have ⟨hp, hh, hi⟩ := Inv.of_run h
  refine ⟨hp, hp.count_release_le, fun i j c d hc hd he hfd => ?_, fun hn r => ?_⟩
  · refine hi.owned.unique (r := .fd c.clientFd) ?_ ?_
    · rw [own_of_some hc]
      exact fd_mem_owned hfd
    · rw [own_of_some hd, he]
      exact fd_mem_owned (he ▸ hfd)
  · have hr : r ∉ after ∅ tr.flatten := by
      rw [← hh, hi.owned.mem_iff]
      exact fun ⟨i, hr⟩ => by simp [own_of_none (hn i)] at hr
    have := hp.count r
    rw [times_of_not_mem hr, times_of_not_mem (Finset.notMem_empty r)] at this
    omega

-- A connection with a TLS session takes the place of another one.
theorem owned_linearly_assigned : ∃ tr s, Run Step .start tr s ∧ (∀ i, s.objects i = none) ∧
    .release (.fd 5) ∈ tr.flatten ∧ ∀ r, tr.flatten.count (.release r) = tr.flatten.count (.acquire r) := by
  let c : ConnectionObject := { clientFd := 5, clientIp := [], clientPort := 1 }
  let d : ConnectionObject := { clientFd := 6, clientIp := [], clientPort := 2 }
  let s₁ := start.access [.acquire (.fd 5)] 0 (some c)
  let s₂ := s₁.access [.acquire (.ssl 7)] 0 (some (c.setSSL 7))
  let s₃ := s₂.access [.acquire (.fd 6)] 1 (some d)
  let s₄ := s₃.move d.overwrite 1 0 (c.setSSL 7) []
  let s₅ := s₄.access (((c.setSSL 7).movedFrom []).destroy false false) 0 none
  have h₁ : Step .start [.acquire (.fd 5)] s₁ := .construct rfl (by decide) (by decide)
  have h₂ : Step s₁ [.acquire (.ssl 7)] s₂ := .setSSL rfl (by decide) rfl (by decide)
  have h₃ : Step s₂ [.acquire (.fd 6)] s₃ := .construct rfl (by decide) (by decide)
  have h₄ : Step s₃ d.overwrite s₄ := .moveAssign (by decide) rfl rfl
  have h₅ : Step s₄ (((c.setSSL 7).movedFrom []).destroy false false) s₅ := .destroy rfl
  have h₆ : Step s₅ ((c.setSSL 7).destroy true true) (s₅.access ((c.setSSL 7).destroy true true) 1 none) := .destroy rfl
  have h := Run.cons h₁ (.cons h₂ (.cons h₃ (.cons h₄ (.cons h₅ (.single h₆)))))
  have hn (i : Nat) : (s₅.access ((c.setSSL 7).destroy true true) 1 none).objects i = none := by
    rcases i with _ | _ | i <;> rfl
  exact ⟨_, _, h, hn, by decide, (owned_linearly h).2.2.2 hn⟩

end Objects
end YNet.ConnectionObject
