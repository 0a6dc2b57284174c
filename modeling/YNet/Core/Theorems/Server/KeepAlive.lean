import YNet.Core.Theorems.Server.Middlewares
import YNet.Core.Theorems.Server.Receive

open Lines Cpp

namespace YNet.Server

variable {σ : Type}

-- What the successive workers of a connection hand to the parser. A worker is started when there is
-- something to read, and after a worker that has rearmed the connection.
inductive Session (server : Server σ) : Connection → List Bytes → Prop
  | idle : (conn.arrivals = []) → Session server conn []
  | lost :
    (conn.arrivals ≠ []) → (∀ raw t, server.handleRequest conn ≠ .emit (.parse raw) t) →
    Session server conn []
  | close :
    (conn.arrivals ≠ []) → (server.handleRequest conn = .emit (.parse raw) t) → (t.Finishes tr) →
    (Event.rearm ∉ tr) → Session server conn [raw]
  | rearm :
    (conn.arrivals ≠ []) → (server.handleRequest conn = .emit (.parse raw) t) → (t.Finishes tr) →
    (Event.rearm ∈ tr) →
    (Session server { conn with arrivals := (receive server.config conn.arrivals).2 } raws) →
    Session server conn (raw :: raws)

variable {server : Server σ} {conn : Connection}

section Rearm

def Stays (x : Exchange) : Prop :=
  x.req.getHeader "Connection" ≠ some ("close" : Bytes)

-- The application comes to an end on every request, and does not ask for the end of the connection.
structure Tame (server : Server σ) : Prop where
  router      : server.router.isSome
  middlewares : ∀ m ∈ server.middlewares, ∀ x, Stays x → (m x).Tame (· = .exception) Stays
  handlers    : ∀ router ∈ server.router, ∀ r ∈ router.routes, ∀ x, Stays x →
    (r.2 x).Tame (· = .exception) Stays
  notFound    : ∀ handler ∈ server.errorHandlers 404, ∀ req,
    (handler req).Tame (· = .exception) fun _ => True
  internal    : ∀ handler ∈ server.errorHandlers 500, ∀ req,
    (handler req).Tame (fun _ => False) fun _ => True

variable (h : server.Tame)

theorem finish_ends (hx : Stays x) : (finish x : Process σ Event).Ends (· = .rearm) := by
  refine .inl ?_
  rw [if_neg hx]
  exact .inr ⟨rfl, rfl⟩

include h

theorem complete_ends (he : ∀ e' ∈ e, e' = .exception) (hx : Stays x) :
    (server.complete e x).Ends (· = .rearm) := by
  unfold complete
  split
  case h_1 => exact finish_ends hx
  case h_2 => exact absurd (he .other rfl) (by simp)
  case h_3 =>
    split
    case h_2 => exact finish_ends hx
    case h_1 handler hh =>
      refine .inl (Code.exec_ends (h.internal handler hh x.req) fun e res he _ => ?_)
      cases e
      case none   => exact finish_ends hx
      case some e => exact absurd (he e rfl) id

theorem notFound_ends (hx : Stays x)
    (hk : ∀ e x, (∀ e' ∈ e, e' = .exception) → Stays x → (k e x).Ends (· = .rearm)) :
    (server.notFound x k).Ends (· = .rearm) := by
  unfold notFound
  split
  case h_1 handler hh =>
    refine .inl (Code.exec_ends (h.notFound handler hh x.req) fun e res he _ => ?_)
    cases e
    case none   => exact hk none _ (by simp) hx
    case some e => exact hk (some e) x he hx
  case h_2 => exact hk none _ (by simp) hx

theorem serveStatic_ends {files : List StaticFileServer} (hx : Stays x)
    (hk : ∀ e x, (∀ e' ∈ e, e' = .exception) → Stays x → (k e x).Ends (· = .rearm)) :
    (server.serveStatic files x k).Ends (· = .rearm) := by
  induction files
  case nil            => exact notFound_ends h hx hk
  case cons f files hi =>
    refine .inl fun s => ?_
    dsimp only
    split
    · exact hk none _ (by simp) hx
    · exact hi

-- A request that is answered leaves the connection open.
theorem handleParsed_ends (hp : req.parseError = false) (hu : ¬WebSocket.isUpgrade req)
    (hc : req.getHeader "Connection" ≠ some ("close" : Bytes)) :
    (server.handleParsed req).Ends (· = .rearm) := by
  have ⟨router, hr⟩ := Option.isSome_iff_exists.mp h.router
  have ⟨params, hf⟩ := router.resolve_frame req.method req.path req
  have hx : Stays ⟨(router.resolve req.method req.path req).2, {}⟩ := by
    rw [hf]
    exact hc
  rw [handleParsed_of_router hp hu hr]
  refine Code.chain_ends h.middlewares (fun x k hx hk => ?_) hx fun e x he hx => complete_ends h he hx
  cases hh : (router.resolve req.method req.path req).1
  case none         => exact serveStatic_ends h hx hk
  case some handler =>
    have ⟨r, hm, he, _⟩ := Router.matches_of_resolve hh
    exact .inl (Code.exec_ends (he ▸ h.handlers router hr r hm x hx) hk)

end Rearm

section Separated

-- The code scans the text for a length. Without one it expects no body.
def Scans (r : Bytes) (n : Nat) : Prop :=
  Announces r n ∨ (r.find "Content-Length: " = none ∧ n = 0)

-- The chunks contain exactly the request. They are read as a whole, and nothing is read behind them.
def ReadAlone (config : Config) (s : Serialization) (cs : List Chunk) (last : Prop) : Prop :=
  payload cs = s.bytes ∧ ∃ n, Scans s.bytes n ∧ n ≤ config.maxUploadSize.toNat ∧
    let heads := covering (s.message.headEnd + 4) cs
    (cs.length ≤ heads ∨ ((payload cs.dropLast).length - (s.message.headEnd + 4) < n ∧
      (cs.length : Int) ≤ heads + (max (maxReads n) 0 + 1))) ∧
    (n ≤ s.body.length ∨ (cs.length : Int) = heads + (max (maxReads n) 0 + 1) ∨ last)

theorem ReadAlone.mono {config : Config} {last last' : Prop} (hl : last → last') (h : ReadAlone config s cs last) :
    ReadAlone config s cs last' :=
  h.imp_right fun ⟨n, h₁, h₂, h₃, h₄⟩ => ⟨n, h₁, h₂, h₃, h₄.imp_right (.imp_right hl)⟩

-- The length is announced in a header, or there is no body.
def Framed (s : Serialization) : Prop :=
  (("Content-Length" : Bytes), natToString s.body.length) ∈ s.headers ∨ s.body = []

theorem contentLength_of_scans {s : Serialization} {raw t : Bytes} (hs : Framed s)
    (hr : raw ++ t = s.bytes) (hl : s.message.headEnd + 4 ≤ raw.length) (hn : Scans s.bytes n) :
    contentLength raw = .ok n := by
  have hb : blank <+: s.bytes.drop s.message.headEnd :=
    Bytes.prefix_drop_of_find (s.message.find_blank : s.bytes.find blank = some s.message.headEnd)
  have hlen : s.bytes.length = s.message.headEnd + 4 + s.body.length := s.message.length_bytes
  cases hs
  case inl hs =>
    have ⟨p, hf, hpl⟩ := exists_length_header hs
    have ⟨_, hsome, _⟩ := Bytes.find_isSome_of_prefix hf (by omega) p.zero_le
    have ha := hn.resolve_right fun h => absurd (hsome.symm.trans h.1) (by simp)
    rw [← hr] at hb hf ha
    exact (contentLength_iff hb hl hf (by omega) (by omega)).mpr ha
  case inr hs =>
    have ht : t = [] := by
      have := congrArg List.length hr
      rw [hlen, hs, List.length_append, List.length_nil] at this
      exact List.length_eq_zero_iff.mp (by omega)
    cases hn
    case inl ha =>
      have ⟨pos, _, hf, _⟩ := ha
      have hle : pos + 16 ≤ _ := Bytes.find_add_length_le hf
      rw [hlen, hs, List.length_nil] at hle
      have hd := Bytes.prefix_drop_of_find hf
      rw [← hr] at hb hd ha
      exact (contentLength_iff hb hl hd (by omega) (by omega)).mpr ha
    case inr hn =>
      rw [ht, List.append_nil] at hr
      simp only [contentLength, hr, hn.1, hn.2]
      rfl

theorem receive_alone {config : Config} {s : Serialization} (hs : Framed s)
    (h : ReadAlone config s cs (rest = [])) :
    receive config (cs.map some ++ rest) = (.raw s.bytes, rest) := by
  have ⟨hp, n, hn, hm, hr, hl⟩ := h
  have hb : (payload cs).find blank = some s.message.headEnd := hp ▸ s.message.find_blank
  have hle : s.message.headEnd + 4 ≤ (payload cs).length := Bytes.find_add_length_le hb
  have ⟨hk, hc⟩ := covering_spec hle
  have hread := readHead_chunks [] rest hb (by simp)
  simp only [List.nil_append, List.length_nil, Nat.sub_zero] at hread
  generalize covering (s.message.headEnd + 4) cs = k at hk hc hread hr hl
  have hd : payload (cs.take k) ++ payload (cs.drop k) = s.bytes := payload_take_append_drop.trans hp
  have hf : (payload (cs.take k)).find "\r\n\r\n" = some s.message.headEnd := by
    rw [hp, ← hd] at hb
    exact Bytes.find_prefix hb hc
  have hcl := contentLength_of_scans hs hd hc hn
  have hbody : (payload (cs.take k) ++ payload (cs.drop k)).length - (s.message.headEnd + 4) = s.body.length := by
    rw [hd, show s.bytes.length = _ from s.message.length_bytes, Nat.add_sub_cancel_left]
    rfl
  have hrest := readBody_rest rest ((readsAll_drop_iff hk).mpr hr) <| by
    rw [hbody]
    refine hl.imp_right (.imp_left fun hl => ?_)
    rw [List.length_drop, Nat.cast_sub hk, hl]
    simp
  rw [hd] at hrest
  simp only [receive, hread, hf, hcl, if_neg (not_lt.mpr hm)]
  simp only [Nat.cast_zero] at hrest
  rw [hrest]

-- What a request asks for: neither an upgrade nor the end of the connection.
structure Plain (s : Serialization) : Prop where
  upgrade : ¬((("Upgrade" : Bytes), ("websocket" : Bytes)) ∈ s.headers ∧
    ∃ v, (("Connection" : Bytes), v) ∈ s.headers ∧ (v.find "Upgrade").isSome)
  close   : (("Connection" : Bytes), ("close" : Bytes)) ∉ s.headers

-- The request passes the checks of the parser.
structure Acceptable (config : Config) (s : Serialization) : Prop where
  fits   : s.Fits config
  path   : isDoubleEncoded (urlDecode (pathPart s.target)) = false
  length : s.LengthMatches
  form   : s.FormAccepted

-- The requests arrive one after the other, each in chunks of its own.
def Separated (config : Config) : List (Serialization × List Chunk) → Prop
  | []                => True
  | (s, cs) :: groups => Framed s ∧ Plain s ∧ Acceptable config s ∧
    ReadAlone config s cs (groups = []) ∧ Separated config groups

theorem handleRequest_of_alone {s : Serialization} (h : server.Tame) (hp : Plain s)
    (ha : Acceptable server.config s) (hh : conn.handshake ≠ some false)
    (hr : (receive server.config conn.arrivals).1 = .raw s.bytes) :
    ∃ t, server.handleRequest conn = .emit (.parse s.bytes) t ∧ t.Ends (· = .rearm) := by
  have ⟨req, hreq, he, hd⟩ := s.parse_accepts ha.fits ha.path ha.length ha.form
  have hg key : req.getHeader key = s.message.headers.lookup key := by rw [Request.getHeader, hd]
  have hacc : server.Accepts conn s.bytes req := ⟨hh, hr, s.bytes_ne_nil, hreq, he⟩
  refine ⟨_, handleRequest_of_accepts hacc, handleParsed_ends h he ?_ ?_⟩
  case refine_1 =>
    intro hu
    change WebSocket.isUpgrade req = true at hu
    rw [WebSocket.isUpgrade, hg, hg] at hu
    split at hu
    case h_1 upgrade conn hu₁ hc =>
      simp only [Bool.and_eq_true, decide_eq_true_eq] at hu
      rw [Serialization.lookup_headers] at hu₁ hc
      exact hp.upgrade ⟨hu.1 ▸ hu₁, conn, hc, hu.2⟩
    case h_2 => contradiction
  case refine_2 =>
    intro hc
    change req.getHeader "Connection" = _ at hc
    rw [hg, Serialization.lookup_headers] at hc
    exact hp.close hc

-- Every worker answers one of the requests and leaves the reads of the others.
theorem session_of_separated [Nonempty σ] {groups : List (Serialization × List Chunk)}
    (h : server.Tame) (hs : Separated server.config groups) (hh : conn.handshake ≠ some false)
    (ha : conn.arrivals = (groups.flatMap Prod.snd).map some) :
    (∃ raws, server.Session conn raws) ∧
      ∀ raws, server.Session conn raws → raws = groups.map (·.1.bytes) := by
  induction groups generalizing conn
  case nil =>
    refine ⟨⟨[], .idle ha⟩, fun raws hr => ?_⟩
    cases hr
    case idle  => rfl
    case lost  => rfl
    case close => contradiction
    case rearm => contradiction
  case cons group groups hi =>
    have ⟨s, cs⟩ := group
    have ⟨hf, hp, hacc, hal, hs⟩ := hs
    let rest : List (Option Chunk) := (groups.flatMap Prod.snd).map some
    have hrecv : receive server.config conn.arrivals = (.raw s.bytes, rest) := by
      rw [ha, List.flatMap_cons, List.map_append]
      exact receive_alone hf (hal.mono fun hg => by rw [hg]; rfl)
    have hne : conn.arrivals ≠ [] := by
      intro hn
      rw [hn] at hrecv
      exact s.bytes_ne_nil (Received.raw.inj (Prod.mk.inj hrecv).1).symm
    have ⟨t, ht, he⟩ := handleRequest_of_alone h hp hacc hh (congrArg Prod.fst hrecv)
    have hi := @hi { conn with arrivals := rest } hs hh rfl
    constructor
    case left =>
      have ⟨tr, hf⟩ := he.finishes
      have ⟨_, hm, he⟩ := he.mem hf
      have ⟨raws, hr⟩ := hi.1
      exact ⟨_, .rearm hne ht hf (he ▸ hm) (by rwa [hrecv])⟩
    case right =>
      intro raws hr
      cases hr with
      | idle hn             => exact absurd hn hne
      | lost _ hn           => exact absurd ht (hn _ _)
      | close _ ht' hf hn   =>
        cases ht.symm.trans ht'
        have ⟨_, hm, he⟩ := he.mem hf
        exact absurd (he ▸ hm) hn
      | rearm _ ht' _ _ hr  =>
        cases ht.symm.trans ht'
        rw [hrecv] at hr
        exact congrArg _ (hi.2 _ hr)

end Separated

section Sample

def routedServer : Server Unit where
  router     := some ⟨[], by simp⟩
  fileSystem := fun _ => ⟨fun _ => none, fun _ => none⟩
  digest     := fun _ => []

theorem routedServer_tame : routedServer.Tame where
  router      := rfl
  middlewares := by simp [routedServer]
  handlers    := by simp [routedServer]
  notFound    := by simp [routedServer]
  internal    := by simp [routedServer]

theorem mem_methods_get : ("GET" : Bytes) ∈ Request.methods := by
  decide

theorem mem_versions_last : ("HTTP/1.1" : Bytes) ∈ Request.versions := by
  decide

theorem isHeader_of_mem_nil : ∀ f ∈ ([] : List (Bytes × Bytes)), IsHeader f :=
  List.forall_mem_nil _

-- A request without headers and body.
def bare (target : Bytes) (h : ∀ b ∈ [Ascii.space, Ascii.cr, Ascii.lf], b ∉ target) : Serialization where
  method  := "GET"
  target
  version := "HTTP/1.1"
  headers := []
  body    := []
  method_mem  := mem_methods_get
  target_mem  := h
  version_mem := mem_versions_last
  isHeader    := isHeader_of_mem_nil
  names_nodup := List.nodup_nil

def first : Serialization :=
  bare "/a" (by decide +kernel)

def second : Serialization :=
  bare "/b" (by decide +kernel)

def chunkOf (s : Serialization) (h : s.bytes.length ≤ 4096) : Chunk :=
  ⟨s.bytes, s.bytes_ne_nil, h⟩

theorem bare_plain : Plain (bare target h) :=
  ⟨by simp [bare], by simp [bare]⟩

theorem bare_formAccepted : (bare target h).FormAccepted := by
  have hl : (bare target h).message.headers.lookup ("Content-Type" : Bytes) = none := by
    simp [Message.headers, Serialization.fields_eq, bare]
  constructor <;>
  · rintro ⟨_, hc, _⟩
    exact absurd (hl.symm.trans hc) (by simp)

theorem readAlone_chunkOf {config : Config} (h : s.bytes.length ≤ 4096)
    (hs : s.bytes.find "Content-Length: " = none) : ReadAlone config s [chunkOf s h] last := by
  have hl : s.message.headEnd + 4 ≤ s.bytes.length :=
    Bytes.find_add_length_le (s.message.find_blank : s.bytes.find blank = some s.message.headEnd)
  have hc : covering (s.message.headEnd + 4) [chunkOf s h] = 1 := if_pos hl
  exact ⟨by simp [chunkOf], 0, .inr ⟨hs, rfl⟩, Nat.zero_le _, .inl (by simp [hc]), .inl (Nat.zero_le _)⟩

theorem first_acceptable : Acceptable {} first :=
  ⟨⟨by decide +kernel, by decide +kernel, by decide +kernel, .inl (by decide +kernel)⟩,
    by decide +kernel, by decide +kernel, bare_formAccepted⟩

theorem second_acceptable : Acceptable {} second :=
  ⟨⟨by decide +kernel, by decide +kernel, by decide +kernel, .inl (by decide +kernel)⟩,
    by decide +kernel, by decide +kernel, bare_formAccepted⟩

theorem separated_sample : Separated {}
    [(first, [chunkOf first (by decide +kernel)]), (second, [chunkOf second (by decide +kernel)])] :=
  ⟨.inr rfl, bare_plain, first_acceptable, readAlone_chunkOf _ (by decide +kernel),
    .inr rfl, bare_plain, second_acceptable, readAlone_chunkOf _ (by decide +kernel), trivial⟩

-- A client that waits for the first response.
def patient : Connection where
  clientIp := []
  arrivals := [some (chunkOf first (by decide +kernel)), some (chunkOf second (by decide +kernel))]

theorem session_sample :
    (∃ raws, routedServer.Session patient raws) ∧
      ∀ raws, routedServer.Session patient raws → raws = [first.bytes, second.bytes] :=
  session_of_separated routedServer_tame separated_sample (by simp [patient]) rfl

-- A client that does not wait for the first response. Both requests arrive in one chunk.
def pipelined : Chunk :=
  ⟨first.bytes ++ second.bytes, by simp [first.bytes_ne_nil], by decide +kernel⟩

theorem session_pipelined :
    Framed first ∧ Framed second ∧ Plain first ∧ Plain second ∧ Acceptable {} first ∧ Acceptable {} second ∧
      ¬routedServer.Session ⟨[], none, [some pipelined]⟩ [first.bytes, second.bytes] := by
  refine ⟨.inr rfl, .inr rfl, bare_plain, bare_plain, first_acceptable, second_acceptable, fun h => ?_⟩
  cases h with
  | rearm _ ht _ _ _ =>
    have hr := (handleRequest_parse_iff (by simp) first.bytes_ne_nil).mp ⟨_, ht⟩
    exact absurd hr (by decide +kernel)

end Sample

end YNet.Server
