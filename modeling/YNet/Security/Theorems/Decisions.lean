import YNet.Security.Theorems.App

namespace YNet

-- The token that a request presents. The header counts, and without a header the first part with the
-- right name, and without such a part, or if it is empty, the form. Nothing is no token.
def Csrf.Presents (req : Request) (token : Bytes) : Prop :=
  token ≠ [] ∧
  match req.getHeader "X-CSRF-Token" with
  | some value => value = token
  | none       =>
    match (req.parts.find? (·.name = key)).filter (·.data.length ≠ 0) with
    | some part => part.data.text req.body = token
    | none      => req.getFormParam key = some token

theorem Csrf.presents_iff (h : ¬Dangles req) : Presents req t ↔ t ≠ [] ∧ ownToken req = t := by
  refine and_congr_right fun hne => ?_
  rw [ownToken]
  cases hh : req.getHeader "X-CSRF-Token" with
  | some value => exact .rfl
  | none       =>
    have hf : (req.parts.find? (·.name = key)).filter (·.data.length ≠ 0) = none := by
      rw [Option.filter_eq_none_iff]
      intro part hp hl
      exact h ⟨hh, part, hp, of_decide_eq_true hl⟩
    simp only [hf, Option.none_or]
    cases hf : req.getFormParam key <;> simp [hne.symm]

namespace App

-- The request is forwarded once, or answered with an error.
def Decided (n : Nat) (_ : Option Trouble) (v : Visit) : Prop :=
  n = 1 ∨ n = 0 ∧ 400 ≤ v.res.statusCode

def ForwardedOnce (n : Nat) (_ : Option Trouble) (_ : Visit) : Prop :=
  n = 1

-- What becomes of a request whose session is known, whatever other requests do at the same time.
structure Decides (req : Request) : Prop where
  decided : ∀ res ref, (csrf { req, res, session := some ref }).Finishes (fun _ => True) Decided 0
  safe    : req.method ∈ (["GET", "HEAD", "OPTIONS"] : List Bytes) →
              ∀ res ref, (csrf { req, res, session := some ref }).Finishes (fun _ => True) ForwardedOnce 0
  token   : req.method ∈ (["PATCH", "POST", "PUT", "DELETE"] : List Bytes) → ∀ t, Csrf.Presents req t →
              ∀ res ref, (csrf { req, res, session := some ref }).Finishes
                (fun s => (s.sessions.objects ref).get Csrf.key = some t) ForwardedOnce 0

variable {req : Request} {v : Visit} {ref : Nat}

theorem usesSession_iff : UsesSession req ↔ req.method ∈ (["GET", "POST", "PUT", "DELETE"] : List Bytes) := by
  simp [UsesSession]

theorem csrf_get {S : Shared → Prop} {R : Nat → Option Trouble → Visit → Prop} (hs : v.session = some ref)
    (hg : v.req.method = ("GET" : Bytes)) (hr : ∀ e v, R 1 e v) : (csrf v).Finishes S R 0 := by
  unfold csrf
  simp only [hg, hs, if_true]
  exact fun _ _ _ _ => Code.finishes_next_forward.mpr hr

def refused (v : Visit) : Visit :=
  { v with res := (v.res.status 403).setBody "Forbidden" }

-- A request whose token is known goes by the comparison with the one of the session.
theorem csrf_verified {S : Shared → Prop} {R : Nat → Option Trouble → Visit → Prop} (hs : v.session = some ref)
    (hg : v.req.method ≠ ("GET" : Bytes)) (hu : UsesSession v.req) (ht : ∀ s, S s → Csrf.token s.freed v.req = some t)
    (hr : ∀ s, S s → Csrf.accepts t ((s.sessions.objects ref).get Csrf.key) = true → ∀ e v, R 1 e v)
    (h : ∀ s, S s → Csrf.accepts t ((s.sessions.objects ref).get Csrf.key) = false → R 0 none (refused v)) :
    (csrf v).Finishes S R 0 := by
  have hm : Csrf.Guards v.req := hu.resolve_left hg
  unfold csrf
  rw [if_neg hg, if_pos hm]
  simp only [hs]
  intro s hS
  simp only [ht s hS]
  intro s' hS'
  dsimp only
  split
  case isTrue hv  => exact Code.finishes_next_forward.mpr (hr s' hS' hv)
  case isFalse hv => exact hs ▸ h s' hS' (Bool.eq_false_iff.mpr hv)

-- A request with another method is neither forwarded nor answered.
theorem csrf_swallows (hu : ¬UsesSession v.req) : csrf v = .ret v := by
  unfold csrf
  have hm : ¬Csrf.Guards v.req := fun h => hu (.inr h)
  rw [if_neg fun h => hu (.inl h), if_neg hm]

theorem Decides.usesSession (h : Decides req) : UsesSession req := by
  by_contra hu
  have hd := h.decided {} 0
  rw [csrf_swallows hu] at hd
  rcases hd with hd | ⟨_, hd⟩
  · contradiction
  · exact absurd (show (400 : Int) ≤ 200 from hd) (by decide)

-- The memory in which the token is looked for is perhaps not mapped any more.
theorem Decides.not_dangles (h : Decides req) (hg : req.method ≠ ("GET" : Bytes)) : ¬Csrf.Dangles req := by
  intro hd
  have ⟨_, _, _, _, ht⟩ := Csrf.exists_token_of_dangles hd
  have hm : Csrf.Guards req := h.usesSession.resolve_left hg
  have h := h.decided {} 0
  unfold csrf at h
  rw [if_neg hg, if_pos hm] at h
  have h := h { blacklist := ∅, buckets := fun _ => ∅, sessions := .empty, steady := 0, time := 0, random := [],
                freed := fun _ => none } trivial
  simp only [ht] at h
  rcases h with h | ⟨_, h⟩
  · contradiction
  · exact absurd (show (400 : Int) ≤ 200 from h) (by decide)

-- Each request that is to be forwarded is forwarded, and the others are answered, if and only if the
-- method is one that the middleware knows and the token is not looked for in a freed body.
theorem decides_iff (req : Request) :
    Decides req ↔ UsesSession req ∧ (req.method = ("GET" : Bytes) ∨ ¬Csrf.Dangles req) := by
  refine ⟨fun h => ⟨h.usesSession, or_iff_not_imp_left.mpr h.not_dangles⟩, fun ⟨hu, hd⟩ => ?_⟩
  refine ⟨fun res ref => ?_, fun hm res ref => ?_, fun hm t ht res ref => ?_⟩
  · by_cases hg : req.method = ("GET" : Bytes)
    case pos => exact csrf_get rfl hg fun _ _ => .inl rfl
    case neg =>
      refine csrf_verified rfl hg hu (fun s _ => Csrf.token_of_not_dangles (hd.resolve_left hg) s.freed)
        (fun _ _ _ _ _ => .inl rfl) fun _ _ _ => .inr ⟨rfl, show (400 : Int) ≤ 403 by decide⟩
  · refine csrf_get rfl ?_ fun _ _ => rfl
    have hg : ∀ m ∈ (["GET", "HEAD", "OPTIONS"] : List Bytes), m ∈ (["GET", "POST", "PUT", "DELETE"] : List Bytes) →
        m = "GET" := by
      decide +kernel
    exact hg _ hm (usesSession_iff.mp hu)
  · have hg : req.method ≠ ("GET" : Bytes) := by
      intro h
      rw [h] at hm
      exact absurd hm (by decide)
    have hn := hd.resolve_left hg
    have ⟨hne, he⟩ := (Csrf.presents_iff hn).mp ht
    refine csrf_verified rfl hg hu (fun s _ => Csrf.token_of_not_dangles hn s.freed) (fun _ _ _ _ _ => rfl)
      fun s hs hv => ?_
    exact absurd (Csrf.accepts_iff.mpr ⟨he ▸ hne, he ▸ hs⟩) (Bool.eq_false_iff.mp hv)

-- Whatever token the session has, the memory can contain something else, and the request is refused.
theorem refused_of_dangles (hd : Csrf.Dangles req) (hg : Csrf.Guards req) (t : Bytes) : ∃ memory, ∀ res ref,
    (csrf { req, res, session := some ref }).Finishes
      (fun s => s.freed = memory ∧ (s.sessions.objects ref).get Csrf.key = some t)
      (fun n e v => n = 0 ∧ e = none ∧ v.res.statusCode = 403) 0 := by
  have ⟨part, _, hl, hread, _⟩ := Csrf.exists_token_of_dangles hd
  have ⟨s, hs, hne⟩ : ∃ s : Bytes, s.length = part.data.length ∧ s ≠ t := by
    by_cases ht : t = List.replicate part.data.length 0
    case neg => exact ⟨_, List.length_replicate, Ne.symm ht⟩
    case pos =>
      refine ⟨List.replicate part.data.length 1, List.length_replicate, fun he => ?_⟩
      have he := (List.replicate_right_inj hl).mp (he.trans ht)
      exact absurd he (by decide)
  have ⟨memory, hm⟩ := hread s hs
  have hget : req.method ≠ ("GET" : Bytes) := by
    rintro h
    rw [Csrf.Guards, h] at hg
    exact absurd hg (by decide)
  refine ⟨memory, fun res ref => csrf_verified rfl hget (.inr hg) (fun s hS => hS.1 ▸ hm) (fun s' hS ha => ?_)
    fun _ _ _ => ⟨rfl, rfl, rfl⟩⟩
  have ⟨_, he⟩ := Csrf.accepts_iff.mp ha
  exact absurd (Option.some.inj (hS.2.symm.trans he)).symm hne

-- A `PATCH` request.
theorem not_decides : ¬∀ (raw : Bytes) (config : Config) (req : Request),
    Request.parse raw config = .ok req → req.parseError = false → Decides req := by
  intro h
  have he : (Request.parse "PATCH / HTTP/1.1\r\n\r\n" {}).toOption.map (fun req => (req.parseError, req.method))
      = some (false, ("PATCH" : Bytes)) := by
    decide +kernel
  have ⟨req, hr, hp⟩ := Exn.exists_of_map_toOption he
  have ⟨ha, hm⟩ := Prod.mk.inj hp
  have hu := (h _ {} req hr ha).usesSession
  rw [usesSession_iff, hm] at hu
  exact absurd hu (by decide +kernel)

end App
end YNet
