import YNet.Security.Theorems.Session

namespace YNet

namespace Csrf

variable {req : Request} {memory : Memory}

-- The token is in the header of a request or, if it has no such header, in its first part with the
-- right name or in its form. The data of a part are what the client has sent in the body.
def Carries (req : Request) (token : Bytes) : Prop :=
  match req.getHeader "X-CSRF-Token" with
  | some value => value = token
  | none       => (∃ part, req.parts.find? (·.name = key) = some part ∧ part.data.text req.body = token) ∨
                  req.getFormParam key = some token

-- The token is looked for where the body has been.
def Dangles (req : Request) : Prop :=
  req.getHeader "X-CSRF-Token" = none ∧ ∃ part, req.parts.find? (·.name = key) = some part ∧ part.data.length ≠ 0

-- The token in the data that a request owns.
def ownToken (req : Request) : Bytes :=
  ((req.getHeader "X-CSRF-Token").or (req.getFormParam key)).getD []

theorem token_of_not_dangles (h : ¬Dangles req) (memory : Memory) : token memory req = some (ownToken req) := by
  rw [token, ownToken]
  cases hh : req.getHeader "X-CSRF-Token" with
  | some value => rfl
  | none       =>
    cases hp : req.parts.find? (·.name = key) with
    | none      => rfl
    | some part =>
      have he : part.data.length = 0 := by_contra fun hl => h ⟨hh, part, hp, hl⟩
      simp only [View.read_of_empty he]
      rfl

-- What is compared with the token of the session is anything of the length of the part.
theorem exists_token_of_dangles (h : Dangles req) : ∃ part, req.parts.find? (·.name = key) = some part ∧
    part.data.length ≠ 0 ∧ (∀ s, s.length = part.data.length → ∃ memory, token memory req = some s) ∧
    token (fun _ => none) req = none := by
  have ⟨hh, part, hp, hl⟩ := h
  refine ⟨part, hp, hl, fun s hs => ?_, ?_⟩
  · have ⟨memory, hm⟩ := View.exists_read hs
    have hne : s ≠ [] := fun he => hl (hs.symm.trans (congrArg List.length he))
    exact ⟨memory, by simp [token, hh, hp, hm, hne]⟩
  · simp [token, hh, hp, View.read_unmapped hl]

theorem exists_token (req : Request) : ∃ memory t, token memory req = some t := by
  by_cases h : Dangles req
  case neg => exact ⟨fun _ => none, _, token_of_not_dangles h _⟩
  case pos =>
    have ⟨part, _, _, ht, _⟩ := exists_token_of_dangles h
    have ⟨memory, hm⟩ := ht (List.replicate part.data.length 0) List.length_replicate
    exact ⟨memory, _, hm⟩

theorem carries_ownToken (h : ownToken req ≠ []) : Carries req (ownToken req) := by
  unfold Carries
  rw [ownToken] at h ⊢
  cases hh : req.getHeader "X-CSRF-Token" with
  | some value => rfl
  | none       =>
    rw [hh, Option.none_or] at h
    cases hf : req.getFormParam key with
    | some t => exact .inr rfl
    | none   => exact absurd (by rw [hf]; rfl) h

theorem accepts_iff : accepts t stored = true ↔ t ≠ [] ∧ stored = some t := by
  simp [accepts]

theorem verify_eq_true (h : verify memory req stored = some true) :
    Guards req ∧ ∃ t, token memory req = some t ∧ t ≠ [] ∧ stored = some t := by
  unfold verify at h
  split at h
  case isFalse    => contradiction
  case isTrue hm  =>
    have ⟨t, ht, ha⟩ := Option.map_eq_some_iff.mp h
    exact ⟨hm, t, ht, accepts_iff.mp ha⟩

end Csrf

namespace Session

variable {o : Options} {tr : List Act} {s s' : World}

def issueTo (ref : Nat) : Act → Option Bytes
  | .issue _ ref' token => if ref' = ref then some token else none
  | _                   => none

-- The values that the random number generator has returned.
def randoms (tr : List Act) : List Bytes :=
  tr.filterMap fun
    | .create _ id _ _  => some id
    | .issue _ _ token  => some token
    | _                 => none

-- The token of each session object is the one that was last issued to it.
structure TokenInv (tr : List Act) (s : World) : Prop where
  token   : ∀ ref, (s.sessions.objects ref).get Csrf.key = Run.last (issueTo ref) tr
  new     : ∀ ref, s.sessions.count ≤ ref → Run.last (issueTo ref) tr = none
  storage : ∀ c ref, s.sessions.storage c = some ref → ref < s.sessions.count
  bound   : ∀ k req ref cookie, s.phase k = .bound req ref cookie → ref < s.sessions.count

theorem TokenInv.start : TokenInv [] (.start now) where
  token _ := Finmap.lookup_empty _
  new _ _ := rfl
  storage := nofun
  bound   := nofun

-- A step that issues no token and leaves the tokens of the session objects as they are.
theorem TokenInv.frame (h : TokenInv tr s) (hi : ∀ ref, issueTo ref e = none)
    (hc : s.sessions.count ≤ s'.sessions.count)
    (ho : ∀ ref, (s'.sessions.objects ref).get Csrf.key = (s.sessions.objects ref).get Csrf.key)
    (hs : ∀ c ref, s'.sessions.storage c = some ref → s.sessions.storage c = some ref ∨ ref < s'.sessions.count)
    (hp : ∀ k req ref cookie, s'.phase k = .bound req ref cookie →
      s.phase k = .bound req ref cookie ∨ ref < s'.sessions.count) : TokenInv (tr ++ [e]) s' where
  token ref     := by rw [ho, Run.last_concat, hi]; exact h.token ref
  new ref hr    := by rw [Run.last_concat, hi]; exact h.new ref (hc.trans hr)
  storage c ref hr           := (hs c ref hr).elim (fun hr => (h.storage c ref hr).trans_le hc) id
  bound k req ref cookie hk  := (hp k req ref cookie hk).elim (fun hk => (h.bound k req ref cookie hk).trans_le hc) id

theorem bound_of_update {phase : Nat → Phase} (h : Function.update phase k p j = .bound req ref cookie) :
    phase j = .bound req ref cookie ∨ p = .bound req ref cookie := by
  by_cases hjk : j = k
  case pos => exact .inr (by simpa [hjk] using h)
  case neg => exact .inl (by simpa [Function.update_of_ne hjk] using h)

theorem get_set_key (sd : SessionData) (value : Bytes) : (sd.set Csrf.key value).get Csrf.key = some value :=
  Finmap.lookup_insert _

theorem get_set_of_ne {key : Bytes} (sd : SessionData) (h : key ≠ Csrf.key) (value : Bytes) :
    (sd.set key value).get Csrf.key = sd.get Csrf.key :=
  Finmap.lookup_insert_of_ne _ h.symm

theorem get_modify (sessions : Sessions) (f : SessionData → SessionData)
    (h : (f (sessions.objects ref)).get Csrf.key = (sessions.objects ref).get Csrf.key) (r : Nat) :
    ((sessions.modify ref f).objects r).get Csrf.key = (sessions.objects r).get Csrf.key := by
  by_cases hr : r = ref
  case pos => simpa [Sessions.modify, hr] using h
  case neg => simp [Sessions.modify, Function.update_of_ne hr]

theorem TokenInv.issue {token : Bytes} (h : TokenInv tr s) (hk : s.phase k = .bound req ref cookie) :
    TokenInv (tr ++ [.issue k ref token])
      { s with sessions := s.sessions.modify ref (·.set Csrf.key token),
               phase := Function.update s.phase k .done } where
  token r := by
    rw [Run.last_concat]
    by_cases hr : r = ref
    case pos => simp [Sessions.modify, hr, issueTo, get_set_key]
    case neg => simpa [Sessions.modify, Function.update_of_ne hr, issueTo, Ne.symm hr] using h.token r
  new r hr := by
    have hlt := h.bound k req ref cookie hk
    have hne : ref ≠ r := (hlt.trans_le hr).ne
    simpa [Run.last_concat, issueTo, hne] using h.new r hr
  storage := h.storage
  bound j req' r cookie' hj := h.bound j req' r cookie' ((bound_of_update hj).resolve_right (by simp))

theorem TokenInv.create {id : Bytes} (h : TokenInv tr s)
    (hr : s.sessions.renew o.ttl s.now sid id = (ref, sessions)) :
    TokenInv (tr ++ [.create k id s.now ref])
      { s with sessions, phase := Function.update s.phase k (.bound req ref (some (setCookie o id))) } := by
  have ⟨href, hc, ho, hnew, hold⟩ := Sessions.renew_eq hr
  refine h.frame (fun _ => rfl) (hc ▸ Nat.le_succ _) (fun r => ?_) (fun c r hs => ?_) (fun j req' r cookie hj => ?_)
  · by_cases hr : r = s.sessions.count
    case pos => simpa [ho, hr, SessionData.get] using ((h.token _).trans (h.new _ le_rfl)).symm
    case neg => simp [ho, Function.update_of_ne hr]
  · by_cases hcid : c = id
    case pos =>
      cases (hcid ▸ hnew).symm.trans hs
      exact .inr (by simp [hc])
    case neg =>
      simp only [hold c hcid] at hs
      split at hs
      case isTrue  => contradiction
      case isFalse => exact .inl hs
  · refine (bound_of_update hj).imp_right fun he => ?_
    cases he
    simp [hc, href]

theorem TokenInv.step (h : TokenInv tr s) (hs : Step o s e s') : TokenInv (tr ++ [e]) s' := by
  cases hs with
  | tick =>
    exact h.frame (fun _ => rfl) le_rfl (fun _ => rfl) (fun _ _ => .inl) fun _ _ _ _ => .inl
  | cleanup =>
    exact h.frame (fun _ => rfl) le_rfl (fun _ => rfl) (fun _ _ hr => .inl (Sessions.cleanup_storage.mp hr).1)
      fun _ _ _ _ => .inl
  | hit _ _ hr =>
    have ⟨c, _, hst, _, hu⟩ := Sessions.find_eq_some hr
    subst hu
    refine h.frame (fun _ => rfl) le_rfl (get_modify s.sessions ({ · with expiresAt := s.now + o.ttl }) rfl) (fun _ _ => .inl) fun _ _ _ _ hj => ?_
    refine (bound_of_update hj).imp_right fun he => ?_
    cases he
    exact h.storage c _ hst
  | miss _ _ hr =>
    have hu := (Sessions.find_eq_none hr).1
    subst hu
    exact h.frame (fun _ => rfl) le_rfl (fun _ => rfl) (fun _ _ => .inl)
      fun _ _ _ _ hj => .inl ((bound_of_update hj).resolve_right (by simp))
  | create _ hr => exact h.create hr
  | issue hk _  => exact h.issue hk
  | verify _ _ _ =>
    exact h.frame (fun _ => rfl) le_rfl (fun _ => rfl) (fun _ _ => .inl)
      fun _ _ _ _ hj => .inl ((bound_of_update hj).resolve_right (by simp))
  | write hk    =>
    exact h.frame (fun _ => rfl) le_rfl (get_modify s.sessions (·.set _ _) (get_set_of_ne _ hk _)) (fun _ _ => .inl) fun _ _ _ _ => .inl

theorem TokenInv.of_run (h : Run (Step o) (.start now) tr s) : TokenInv tr s :=
  h.history .start fun _ _ _ _ _ hs hi => hi.step hs

theorem issueTo_eq_some (h : issueTo ref e = some token) : ∃ j, e = .issue j ref token := by
  cases e <;> simp_all [issueTo]

theorem mem_randoms_of_issue (h : .issue j ref token ∈ tr) : token ∈ randoms tr :=
  List.mem_filterMap.mpr ⟨_, h, rfl⟩

theorem randoms_issue_ne (hd : (randoms (tr₁ ++ .issue j ref token :: tr₂)).Nodup)
    (h : .issue j' ref' token' ∈ tr₁ ++ tr₂) : token' ≠ token := by
  have hr : randoms (tr₁ ++ .issue j ref token :: tr₂) = randoms tr₁ ++ token :: randoms tr₂ := by
    simp [randoms]
  rw [hr, List.nodup_middle] at hd
  rintro rfl
  refine (List.nodup_cons.mp hd).1 (List.mem_append.mpr ?_)
  exact (List.mem_append.mp h).imp mem_randoms_of_issue mem_randoms_of_issue

-- Only the token that the last `GET` request of a session has got lets a request of the session through, and
-- the request carries it. Where the token is read in a freed body, the memory must contain it.
theorem forwarded (h : Run (Step o) (.start now) tr s) (hd : (randoms tr).Nodup)
    (hs : Step o s (.verify k ref req true) s') :
    (req.method = ("POST" : Bytes) ∨ req.method = ("PUT" : Bytes) ∨ req.method = ("DELETE" : Bytes)) ∧
    (∃ cookie, s.phase k = .bound req ref cookie) ∧
    ∃ tr₁ j token tr₂, tr = tr₁ ++ .issue j ref token :: tr₂ ∧ (∀ j' token', .issue j' ref token' ∉ tr₂) ∧
      (∃ m get cookie, Run (Step o) (.start now) tr₁ m ∧ m.phase j = .bound get ref cookie ∧ get.method = ("GET" : Bytes)) ∧
      token ≠ [] ∧ (∃ memory, Csrf.token memory req = some token) ∧
      (¬Csrf.Dangles req → Csrf.ownToken req = token ∧ Csrf.Carries req token) ∧
      ∀ j' ref' token', .issue j' ref' token' ∈ tr₁ ++ tr₂ → token' ≠ token := by
  have hi := TokenInv.of_run h
  cases hs with
  | verify hk _ hv =>
    have ⟨hm, token, ht, hne, hst⟩ := Csrf.verify_eq_true hv
    have ⟨tr₁, e, tr₂, htr, he, hl⟩ := Run.last_eq_some ((hi.token ref).symm.trans hst)
    have ⟨j, hj⟩ := issueTo_eq_some he
    subst htr hj
    refine ⟨hm, ⟨_, hk⟩, tr₁, j, token, tr₂, rfl, fun j' token' hm => ?_, ?_, hne, ⟨_, ht⟩, fun hn => ?_,
      fun _ _ _ => randoms_issue_ne hd⟩
    · simpa [issueTo] using hl _ hm
    · have ⟨m, _, h₁, hs, _⟩ := Run.mid_iff.mp h
      cases hs with
      | issue hk hm => exact ⟨m, _, _, h₁, hk, hm⟩
    · cases (Csrf.token_of_not_dangles hn _).symm.trans ht
      exact ⟨rfl, Csrf.carries_ownToken hne⟩

-- A session, and the token of its `GET` request.
def sid : Bytes :=
  List.replicate 64 97

def issued : Bytes :=
  List.replicate 64 98

-- The state in which a request of the session waits for the comparison.
theorem run_bound (req : Request) (hc : sessionId ({} : Options).cookieName req = .ok (some sid)) :
    ∃ s, Run (Step {}) (.start 0) [.lookup 0 none 0 none, .create 0 sid 0 0, .issue 0 0 issued,
      .lookup 1 (some sid) 0 (some 0)] s ∧ s.phase 1 = .bound req 0 none ∧
      (s.sessions.objects 0).get Csrf.key = some issued := by
  have hq : sessionId ({} : Options).cookieName { method := "GET" } = .ok none := rfl
  exact ⟨_, .cons (.miss rfl hq rfl) (.cons (.create rfl rfl) (.cons (.issue rfl rfl) (.single (.hit rfl hc rfl)))),
    rfl, rfl⟩

-- A request with the token in its header.
def post : Request where
  method  := "POST"
  headers :=
    let headers : StringMap := Finmap.insert ("Cookie" : Bytes) (Bytes.ofString "session_id=" ++ sid) ∅
    headers.insert "X-CSRF-Token" issued

theorem forwarded_post : ∃ tr s s', Step {} s (.verify 1 0 post true) s' ∧
    ∃ tr₁ j token tr₂, tr = tr₁ ++ Act.issue j 0 token :: tr₂ ∧ Csrf.Carries post token := by
  have ⟨s, hr, hk, hst⟩ := run_bound post (by decide +kernel)
  have hn : ¬Csrf.Dangles post := fun h => absurd h.1 (by decide +kernel)
  have hv : Csrf.verify (fun _ => none) post ((s.sessions.objects 0).get Csrf.key) = some true := by
    rw [hst]
    decide +kernel
  have hs := Step.verify (o := {}) hk (by decide +kernel) hv
  have ⟨_, _, tr₁, j, token, tr₂, ht, _, _, _, _, hc, _⟩ := forwarded hr (by decide +kernel) hs
  exact ⟨_, s, _, hs, tr₁, j, token, tr₂, ht, (hc hn).2⟩

-- An upload with a wrong token.
def upload : Bytes :=
  Bytes.ofString "POST / HTTP/1.1\r\nCookie: session_id=" ++ sid ++
    Bytes.ofString "\r\nContent-Type: multipart/form-data; boundary=B\r\n\r\n--B\r\nname=\"_csrf\"\r\n\r\n" ++
    List.replicate 64 99 ++ Bytes.ofString "\r\n--B--"

-- The memory of its body contains the token of the session by the time that it is read.
theorem not_forwarded : ¬∀ (o : Options) (now : Int) (tr : List Act) (s s' : World) (k ref : Nat) (req : Request)
    (raw : Bytes) (config : Config), Request.parse raw config = .ok req → req.parseError = false →
    Run (Step o) (.start now) tr s → (randoms tr).Nodup → Step o s (.verify k ref req true) s' →
    ∃ j token, .issue j ref token ∈ tr ∧ Csrf.Carries req token := by
  intro h
  have he : (Request.parse upload {}).toOption.map (fun req => decide (
      req.parseError = false ∧ req.method = ("POST" : Bytes) ∧
      req.getHeader "Cookie" = some (Bytes.ofString "session_id=" ++ sid) ∧ req.getHeader "X-CSRF-Token" = none ∧
      (req.parts.find? (·.name = Csrf.key)).map (fun part => (part.data.length, part.data.text req.body)) =
        some (64, List.replicate 64 99) ∧ req.getFormParam Csrf.key = some (List.replicate 64 99))) = some true := by
    decide +kernel
  have ⟨req, hp, he⟩ := Exn.exists_of_map_toOption he
  have ⟨ha, hm, hc, hh, hpart, hf⟩ := of_decide_eq_true he
  have ⟨part, hfind, hpart⟩ := Option.map_eq_some_iff.mp hpart
  have ⟨hlen, htext⟩ := Prod.mk.inj hpart
  have ⟨s, hr, hk, hst⟩ := run_bound req (by rw [sessionId, hc]; decide +kernel)
  have ⟨_, hfind', _, hread, _⟩ := Csrf.exists_token_of_dangles ⟨hh, part, hfind, by rw [hlen]; decide⟩
  cases hfind.symm.trans hfind'
  have ⟨memory, ht⟩ := hread issued (hlen ▸ rfl)
  have hv : Csrf.verify memory req ((s.sessions.objects 0).get Csrf.key) = some true := by
    rw [hst, Csrf.verify, if_pos (.inl hm), ht]
    decide +kernel
  have hs := Step.verify (o := {}) hk (by rw [hm]; decide +kernel) hv
  have ⟨j, token, hi, hcarry⟩ := h {} 0 _ s _ 1 0 req upload {} hp ha hr (by decide +kernel) hs
  have ⟨_, hi⟩ : j = 0 ∧ token = issued := by simpa using hi
  have hne : List.replicate 64 99 ≠ token := by
    rw [hi]
    decide
  rw [Csrf.Carries, hh] at hcarry
  rcases hcarry with ⟨_, hfind', he⟩ | he
  · cases hfind.symm.trans hfind'
    exact hne (htext.symm.trans he)
  · exact hne (Option.some.inj (hf.symm.trans he))

end Session
end YNet
