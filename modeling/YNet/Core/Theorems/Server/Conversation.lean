import YNet.Core.Route
import YNet.Core.Theorems.Replies
import YNet.Core.Theorems.Routes
import YNet.Core.Theorems.Server.KeepAlive
import YNet.Net.Theorems.Writes

open Lines Cpp

namespace YNet

-- A request of a client, the chunks in which it arrives, and what the server is to answer.
structure Turn where
  request : Serialization
  chunks  : List Chunk
  answer  : Script

namespace Turn

variable {σ : Type} {router : Router σ} {rs : List (Router.Registration σ)} {t : Turn}

def path (t : Turn) : Bytes :=
  canonicalPath (urlDecode (pathPart t.request.target))

-- A handler that only builds a response.
def respond (calls : List Call) : Handler σ := fun x =>
  .ret { x with res := calls.foldl Response.call x.res }

-- The route is meant by the request: its path is equal, or it is a pattern and no path is equal.
def Means (rs : List (Router.Registration σ)) (t : Turn) (r : Router.Registration σ) : Prop :=
  r.Equals t.request.method t.path ∨
    r.Fits t.request.method t.path ∧ ∀ r' ∈ rs, ¬r'.Equals t.request.method t.path

-- There is a route for the request, and all routes that are meant by it give the answer.
structure Routed (rs : List (Router.Registration σ)) (t : Turn) : Prop where
  exists_route : ∃ r ∈ rs, t.Means rs r
  handler      : ∀ r ∈ rs, t.Means rs r → r.handler = respond t.answer.calls

theorem colon_not_mem (hm : method ∈ Request.methods) : Ascii.colon ∉ method := by
  have : ∀ m ∈ Request.methods, Ascii.colon ∉ m := by decide +kernel
  exact this method hm

theorem resolve_eq (ht : router.IsTable rs) (hc : ∀ r ∈ rs, Ascii.colon ∉ r.method) (h : t.Routed rs) (req : Request) :
    (router.resolve t.request.method t.path req).1 = some (respond t.answer.calls) := by
  have hm := colon_not_mem t.request.method_mem
  have hr := router.resolves t.request.method t.path req
  generalize router.chosen t.request.method t.path = entry, router.resolve t.request.method t.path req = result at hr ⊢
  cases hr with
  | equal he hk =>
    obtain ⟨r, hmem, rfl⟩ := ht.exists_registration he
    exact congrArg some (h.handler r hmem (.inl (Router.routeKey_inj (hc r hmem) hm hk)))
  | pattern hn he hp =>
    have hn := (ht.key_not_mem_iff hc hm).mp hn
    obtain ⟨r, hmem, rfl⟩ := ht.exists_registration he
    have hf := (Router.Registration.routeParams_isSome_iff (hc r hmem)).mp (Option.isSome_of_eq_some hp)
    exact congrArg some (h.handler r hmem (.inr ⟨hf, hn⟩))
  | absent hn hp =>
    have hn := (ht.key_not_mem_iff hc hm).mp hn
    obtain ⟨r, hmem, he⟩ := h.exists_route
    refine he.elim (fun he => absurd he (hn r hmem)) fun ⟨hf, _⟩ => ?_
    obtain ⟨handler, hentry⟩ := ht.exists_entry hmem
    have hs := (Router.Registration.routeParams_isSome_iff (hc r hmem)).mpr hf
    rw [hp _ hentry] at hs
    contradiction

theorem parse_eq {config : Config} {s : Serialization} (h : Server.Acceptable config s) :
    ∃ req, Request.parse s.bytes config = .ok req ∧ req.parseError = false ∧ req.headers = s.message.headers ∧
      req.method = s.method ∧ req.path = canonicalPath (urlDecode (pathPart s.target)) := by
  have hb : s.body.length < 2 ^ 64 := h.fits.body.trans_lt config.maxBodySize.toNat_lt
  obtain ⟨query, _, hp⟩ := Request.parse_of_valid h.fits (Serialization.message_valid h.path h.length hb)
  obtain ⟨req, hr⟩ := (Request.parseForm_ok_iff (s.message.request s.sp1 s.sp2 query)).mpr h.form.2
  refine ⟨req, hp.trans hr, ?_⟩
  rcases Request.parseForm_cases hr with ⟨_, _, rfl⟩ | ⟨hl, _⟩
  · refine ⟨rfl, rfl, s.take_sp1, ?_⟩
    simp [Message.request, Message.path, s.target_eq]
  · exact absurd hl h.form.1

end Turn

namespace Server

variable {σ : Type}

-- What happens on a connection. A worker is started when there is something to read, and after a worker
-- that has rearmed the connection.
inductive Conversation (server : Server σ) : Connection → List Event → Prop
  | idle : (conn.arrivals = []) → Conversation server conn []
  | last :
    (conn.arrivals ≠ []) → ((server.handleRequest conn).Finishes tr) → (Event.rearm ∉ tr) →
    Conversation server conn tr
  | rearm :
    (conn.arrivals ≠ []) → ((server.handleRequest conn).Finishes tr) → (Event.rearm ∈ tr) →
    (Conversation server { conn with arrivals := (receive server.config conn.arrivals).2 } tr') →
    Conversation server conn (tr ++ tr')

variable {server : Server σ} {conn : Connection} {router : Router σ} {rs : List (Router.Registration σ)}
  {t : Turn}

-- The routes of the server are those that have been registered, and there is nothing in front of them.
structure Routes (server : Server σ) (rs : List (Router.Registration σ)) : Prop where
  router      : ∃ router, server.router = some router ∧ router.IsTable rs
  methods     : ∀ r ∈ rs, Ascii.colon ∉ r.method
  middlewares : server.middlewares = []

theorem not_isUpgrade {s : Serialization} (hp : Plain s) (hd : req.headers = s.message.headers) : ¬WebSocket.isUpgrade req := by
  have hg key : req.getHeader key = s.message.headers.lookup key := by rw [Request.getHeader, hd]
  intro hu
  rw [WebSocket.isUpgrade, hg, hg] at hu
  split at hu
  case h_1 upgrade conn hu₁ hc =>
    simp only [Bool.and_eq_true, decide_eq_true_eq] at hu
    rw [Serialization.lookup_headers] at hu₁ hc
    exact hp.upgrade ⟨hu.1 ▸ hu₁, conn, hc, hu.2⟩
  case h_2 => contradiction

-- The request is parsed and answered by its route, and the connection waits for the next one.
def events (t : Turn) : List Event :=
  [.parse t.request.bytes, .handler, .send t.answer.response, .rearm]

theorem handleParsed_eq (h : server.Routes rs) (hr : t.Routed rs) (hp : Plain t.request) (he : req.parseError = false)
    (hd : req.headers = t.request.message.headers) (hm : req.method = t.request.method) (hpath : req.path = t.path) :
    server.handleParsed req = .emit .handler (.emit (.send t.answer.response) (.emit .rearm .stop)) := by
  obtain ⟨router, hrouter, htable⟩ := h.router
  have hroute := Turn.resolve_eq htable h.methods hr req
  obtain ⟨params, hf⟩ := router.resolve_frame t.request.method t.path req
  have hc : Request.getHeader { req with params } "Connection" ≠ some ("close" : Bytes) := by
    rw [Request.getHeader, hd]
    exact fun hc => hp.close (Serialization.lookup_headers.mp hc)
  rw [handleParsed_of_router he (not_isUpgrade hp hd) hrouter, hm, hpath, hroute, hf, h.middlewares]
  simp only [Code.chain, dispatch, Turn.respond, Code.exec, Code.run, complete, finish, if_neg hc]
  rfl

theorem handleRequest_eq (h : server.Routes rs) (hr : t.Routed rs) (hp : Plain t.request)
    (ha : Acceptable server.config t.request) (hh : conn.handshake ≠ some false)
    (hrecv : (receive server.config conn.arrivals).1 = .raw t.request.bytes) :
    server.handleRequest conn =
      .emit (.parse t.request.bytes) (.emit .handler (.emit (.send t.answer.response) (.emit .rearm .stop))) := by
  obtain ⟨req, hreq, he, hd, hm, hpath⟩ := Turn.parse_eq ha
  have hacc : server.Accepts conn t.request.bytes req := ⟨hh, hrecv, t.request.bytes_ne_nil, hreq, he⟩
  rw [handleRequest_of_accepts hacc]
  exact congrArg _ (handleParsed_eq h hr hp he hd hm hpath)

theorem finishes_events_iff {t : Turn} : (Process.emit (σ := σ) (.parse t.request.bytes) (.emit .handler
    (.emit (.send t.answer.response) (.emit .rearm .stop)))).Finishes tr ↔ tr = events t := by
  constructor
  · intro h
    cases h with | emit h => cases h with | emit h => cases h with | emit h => cases h with | emit h => cases h; rfl
  · rintro rfl
    exact .emit (.emit (.emit (.emit .stop)))

-- The requests arrive one after the other, and each of them has a route.
def Orderly (server : Server σ) (rs : List (Router.Registration σ)) (turns : List Turn) : Prop :=
  Separated server.config (turns.map fun t => (t.request, t.chunks)) ∧ ∀ t ∈ turns, t.Routed rs

-- Each request is answered by its route before the next one is read.
theorem conversation_iff {turns : List Turn} (h : server.Routes rs) (ht : server.Orderly rs turns)
    (hh : conn.handshake ≠ some false) (ha : conn.arrivals = (turns.flatMap Turn.chunks).map some) :
    server.Conversation conn tr ↔ tr = turns.flatMap events := by
  induction turns generalizing conn tr with
  | nil =>
    constructor
    · intro hc
      cases hc with
      | idle         => rfl
      | last hn      => exact absurd ha hn
      | rearm hn     => exact absurd ha hn
    · rintro rfl
      exact .idle ha
  | cons t turns hi =>
    obtain ⟨⟨hf, hp, hacc, hal, hs⟩, hr⟩ := ht
    obtain ⟨hr, hrs⟩ := List.forall_mem_cons.mp hr
    let rest : List (Option Chunk) := (turns.flatMap Turn.chunks).map some
    have hrecv : receive server.config conn.arrivals = (.raw t.request.bytes, rest) := by
      rw [ha, List.flatMap_cons, List.map_append]
      exact receive_alone hf (hal.mono fun hg => by simp [List.map_eq_nil_iff.mp hg])
    have hne : conn.arrivals ≠ [] := by
      intro hn
      rw [hn] at hrecv
      exact t.request.bytes_ne_nil (Received.raw.inj (Prod.mk.inj hrecv).1).symm
    have heq := handleRequest_eq h hr hp hacc hh (congrArg Prod.fst hrecv)
    have hmem : Event.rearm ∈ events t := by simp [events]
    have hi (tr : List Event) := @hi { conn with arrivals := rest } tr ⟨hs, hrs⟩ hh rfl
    constructor
    · intro hc
      cases hc with
      | idle hn => exact absurd hn hne
      | last _ hf hn =>
        rw [heq, finishes_events_iff] at hf
        exact absurd (hf ▸ hmem) hn
      | rearm _ hf _ hc =>
        rw [heq, finishes_events_iff] at hf
        rw [hrecv] at hc
        rw [hf, (hi _).mp hc]
        rfl
    · rintro rfl
      refine .rearm hne (heq ▸ finishes_events_iff.mpr rfl) hmem ?_
      rw [hrecv]
      exact (hi _).mpr rfl

section Client

-- The responses that are sent, and what they put on the wire when each is written with its order of headers.
def sent (tr : List Event) : List Response :=
  tr.filterMap fun
    | .send res => some res
    | _         => none

def sendAll (sink : Sink) (responses : List (Order × Response)) : Sink :=
  responses.foldl (fun sink r => Response.send r.1 r.2 sink) sink

theorem sent_events {turns : List Turn} : sent (turns.flatMap events) = turns.map (·.answer.response) := by
  induction turns with
  | nil           => rfl
  | cons t turns hi =>
    rw [List.flatMap_cons, sent, List.filterMap_append]
    exact congrArg (t.answer.response :: ·) hi

theorem outcomes_writeLoop {sink : Sink} : (sink.writeLoop rest).outcomes = sink.outcomes := by
  fun_induction Sink.writeLoop sink rest
  case case1 sink rest sink' h =>
    unfold Sink.write at h
    split at h <;> cases h
    rfl
  case case2 sink rest sink' h     => exact (Sink.outcomes_of_write_some h).choose_spec.2.2.1
  case case3 sink rest n sink' h hne hi => exact hi.trans (Sink.outcomes_of_write_some h).choose_spec.2.2.1

theorem takes_of_isSome {sink : Sink} (h : ∀ i, (sink.outcomes i).isSome) (size : Nat) : sink.Takes size :=
  ⟨size, fun _ _ => h _, (Finset.card_nsmul_le_sum (Finset.range size) _ 1 (by simp)).trans' (by simp)⟩

theorem accepted_sendAll {sink : Sink} {scripts : List Script} (h : ∀ i, (sink.outcomes i).isSome) :
    (sendAll sink (scripts.map fun s => (s.order, s.response))).accepted =
      sink.accepted ++ scripts.flatMap Script.bytes := by
  induction scripts generalizing sink with
  | nil             => exact (List.append_nil _).symm
  | cons s scripts hi =>
    have hd : (Response.send s.order s.response sink).accepted = sink.accepted ++ s.bytes :=
      Sink.writeLoop_delivers_iff.mpr (takes_of_isSome h _)
    have ho : (Response.send s.order s.response sink).outcomes = sink.outcomes := outcomes_writeLoop
    have hi := @hi (Response.send s.order s.response sink) (by rwa [ho])
    rw [hd, List.append_assoc] at hi
    exact hi

theorem readAll_scripts (scripts : List Script) :
    Reply.readAll (scripts.flatMap Script.bytes) = some (scripts.map Script.reply) := by
  induction scripts with
  | nil               => rw [List.flatMap_nil, Reply.readAll, if_pos rfl]; rfl
  | cons s scripts hi =>
    rw [List.flatMap_cons, Reply.readAll_append s.bytes_ne_nil s.read_bytes, hi]
    rfl

-- A client that sends its requests one after the other on one connection, each in pieces that are read alone,
-- reads one reply to each of them, in their order: what the route of the request has answered.
theorem conversation_read {turns : List Turn} {sink : Sink} (h : server.Routes rs) (ht : server.Orderly rs turns)
    (hh : conn.handshake ≠ some false) (ha : conn.arrivals = (turns.flatMap Turn.chunks).map some)
    (hs : ∀ i, (sink.outcomes i).isSome) (he : sink.accepted = []) :
    (∃ tr, server.Conversation conn tr) ∧ ∀ tr, server.Conversation conn tr →
      Reply.readAll (sendAll sink ((turns.map (·.answer.order)).zip (sent tr))).accepted =
        some (turns.map (·.answer.reply)) := by
  refine ⟨⟨_, (conversation_iff h ht hh ha).mpr rfl⟩, fun tr hc => ?_⟩
  have hz : (turns.map (·.answer.order)).zip (sent tr) = (turns.map (·.answer)).map fun s => (s.order, s.response) := by
    rw [(conversation_iff h ht hh ha).mp hc, sent_events, List.zip_map', List.map_map]
    rfl
  rw [hz, accepted_sendAll hs, he, List.nil_append, readAll_scripts, List.map_map]
  rfl

end Client

section Sample

def pageCalls : List Call :=
  [.html "<p>A</p>"]

def dataCalls : List Call :=
  [.json "[1]"]

theorem clean_pageCalls : ∀ c ∈ pageCalls, c.Clean :=
  List.forall_mem_singleton.mpr .intro

theorem clean_dataCalls : ∀ c ∈ dataCalls, c.Clean :=
  List.forall_mem_singleton.mpr .intro

def pageRoute : Router.Registration Unit :=
  ⟨"GET", "/a", Turn.respond pageCalls⟩

def dataRoute : Router.Registration Unit :=
  ⟨"GET", "/:name", Turn.respond dataCalls⟩

def pageServer : Server Unit :=
  { routedServer with router := some (((Router.register []).get "/a").html "<p>A</p>" |>.get "/:name" |>.json "[1]") }

theorem pageServer_routes : pageServer.Routes [pageRoute, dataRoute] :=
  ⟨⟨_, rfl, List.Perm.refl _⟩, by decide +kernel, rfl⟩

theorem length_first : first.bytes.length ≤ 4096 := by
  decide +kernel

theorem length_second : second.bytes.length ≤ 4096 := by
  decide +kernel

noncomputable def firstTurn : Turn where
  request := first
  chunks  := [chunkOf first length_first]
  answer  := ⟨pageCalls, clean_pageCalls, .arbitrary⟩

noncomputable def secondTurn : Turn where
  request := second
  chunks  := [chunkOf second length_second]
  answer  := ⟨dataCalls, clean_dataCalls, .arbitrary⟩

theorem path_firstTurn : firstTurn.path = "/a" := by
  change canonicalPath (urlDecode (pathPart "/a")) = _
  decide +kernel

theorem path_secondTurn : secondTurn.path = "/b" := by
  change canonicalPath (urlDecode (pathPart "/b")) = _
  decide +kernel

theorem routed_firstTurn : firstTurn.Routed [pageRoute, dataRoute] := by
  have he : pageRoute.Equals firstTurn.request.method firstTurn.path := ⟨rfl, path_firstTurn.symm⟩
  refine ⟨⟨_, List.mem_cons_self, .inl he⟩, fun r hr hm => ?_⟩
  rcases List.mem_cons.mp hr with rfl | hr
  · rfl
  · cases List.mem_singleton.mp hr
    rcases hm with ⟨_, hm⟩ | ⟨_, hm⟩
    · rw [path_firstTurn] at hm
      exact absurd hm (by decide)
    · exact absurd he (hm _ List.mem_cons_self)

-- The path is that of no route, but fits the pattern of one.
theorem routed_secondTurn : secondTurn.Routed [pageRoute, dataRoute] := by
  have hs : segments "/:name" = [":name"] ∧ segments "/b" = ["b"] := by decide +kernel
  have hf : dataRoute.Fits secondTurn.request.method secondTurn.path := by
    refine ⟨rfl, by decide, ?_⟩
    rw [path_secondTurn, PatternMatches]
    change List.Forall₂ _ (segments "/:name") _
    rw [hs.1, hs.2]
    exact .cons ⟨by decide, .inl rfl⟩ .nil
  have hn : ∀ r ∈ [pageRoute, dataRoute], ¬r.Equals secondTurn.request.method secondTurn.path := by
    rw [path_secondTurn]
    rintro r hr ⟨_, he⟩
    rcases List.mem_cons.mp hr with rfl | hr
    · exact absurd he (by decide)
    · cases List.mem_singleton.mp hr
      exact absurd he (by decide)
  refine ⟨⟨dataRoute, by simp, .inr ⟨hf, hn⟩⟩, fun r hr hm => ?_⟩
  rcases List.mem_cons.mp hr with rfl | hr
  · rcases hm with hm | ⟨⟨_, hm, _⟩, _⟩
    · exact absurd hm (hn _ List.mem_cons_self)
    · exact absurd hm (by decide)
  · cases List.mem_singleton.mp hr
    rfl

-- A socket that takes one byte at a time.
def slowSocket : Sink where
  outcomes _ := some 1

theorem conversation_read_sample :
    (∃ tr, pageServer.Conversation patient tr) ∧ ∀ tr, pageServer.Conversation patient tr →
      Reply.readAll (sendAll slowSocket (([firstTurn, secondTurn].map (·.answer.order)).zip (sent tr))).accepted =
        some ([firstTurn, secondTurn].map (·.answer.reply)) :=
  conversation_read pageServer_routes
    ⟨separated_sample, List.forall_mem_cons.mpr ⟨routed_firstTurn, List.forall_mem_singleton.mpr routed_secondTurn⟩⟩
    (by simp [patient]) rfl
    (fun _ => rfl) rfl

end Sample

end Server

end YNet
