import YNet.Core.ErrorRoute
import YNet.Core.Theorems.Server.Middlewares
import YNet.Lib.Outcome

open Code

namespace YNet.Server

variable {σ : Type} {server : Server σ}

section Handled

-- What the server has for a code: the result of the handler that is registered, or the default page.
inductive PageEffect (server : Server σ) (code : Int) (x : Exchange) : Option Fault → Exchange → Prop
  | page (h : server.errorHandlers code = some handler) (hr : Outcome Effect.skip (handler x.req) none res) :
    PageEffect server code x none { x with res }
  | fault (h : server.errorHandlers code = some handler) (hr : Outcome Effect.skip (handler x.req) (some e) res) :
    PageEffect server code x (some e) x
  | default (h : server.errorHandlers code = none) : PageEffect server code x none { x with res := .error code }

inductive StaticEffect (server : Server σ) : List StaticFileServer → Exchange → Option Fault → Exchange → Prop
  | missing : (server.PageEffect 404 x e x') → StaticEffect server [] x e x'
  | served (s : σ) : (files.tryServe (server.fileSystem s) x.req x.res = some res) →
    StaticEffect server (files :: rest) x none { x with res }
  | skipped (s : σ) : (files.tryServe (server.fileSystem s) x.req x.res = none) →
    (StaticEffect server rest x e x') → StaticEffect server (files :: rest) x e x'

def dispatchEffect (server : Server σ) : Option (Handler σ) → Effect Fault Exchange
  | some handler => fun x => Outcome Effect.skip (handler x)
  | none         => server.StaticEffect server.staticFiles

-- How the call of the outermost `next` can come to its end for a request.
def Handled (server : Server σ) (router : Router σ) (req : Request) : Option Fault → Exchange → Prop :=
  let resolved := router.resolve req.method req.path req
  chainEffect (server.dispatchEffect resolved.1) server.middlewares ⟨resolved.2, {}⟩

-- The response that is sent then.
inductive Completes (server : Server σ) : Option Fault → Exchange → Response → Prop
  | ret : Completes server none x x.res
  | caught : (server.PageEffect 500 x none x') → Completes server (some .exception) x x'.res

variable {ev : Event} {k : Option Fault → Exchange → Process σ Event}

theorem notFound_computes (he : .errorHandler 404 ≠ ev) :
    Computes (· = ev) server.notFound (server.PageEffect 404) where
  reaches k hx := by
    cases hx with
    | page h hr  =>
      simp only [notFound, h]
      exact (Computes.exec_reaches hr).imp' _ fun _ => .emit
    | fault h hr =>
      simp only [notFound, h]
      exact (Computes.exec_reaches hr).imp' _ fun _ => .emit
    | default h  =>
      simp only [notFound, h]
      exact ⟨[], .refl⟩
  avoids hk    := by
    unfold notFound
    split
    case h_1 handler h =>
      refine ⟨he, Computes.exec_avoids fun e res hr => ?_⟩
      cases e with
      | none   => exact hk _ _ (.page h hr)
      | some e => exact hk _ _ (.fault h hr)
    case h_2 h => exact hk _ _ (.default h)

theorem serveStatic_computes {files : List StaticFileServer} (he : .errorHandler 404 ≠ ev) (hs : .staticFile ≠ ev) :
    Computes (· = ev) (server.serveStatic files) (server.StaticEffect files) := by
  induction files with
  | nil              =>
    have hn : Computes (· = ev) server.notFound (server.PageEffect 404) := notFound_computes he
    exact ⟨fun k hx => hn.reaches k (by cases hx; assumption), fun hk => hn.avoids fun e x' hx => hk e x' (.missing hx)⟩
  | cons f files hi  =>
    refine .emit hs ⟨fun {x e x'} k hx => ?_, fun {x k} hk s _ => ?_⟩
    · cases hx with
      | served s hf    =>
        refine ⟨[], .act s ?_⟩
        simp only [hf]
        exact .refl
      | skipped s hf h =>
        have ⟨tr, hr⟩ := hi.reaches k h
        refine ⟨tr, .act s ?_⟩
        simpa only [hf] using hr
    · dsimp only
      split
      case h_1 res hf => exact hk _ _ (.served s hf)
      case h_2 hf     => exact hi.avoids fun e x' hx => hk e x' (.skipped s hf hx)

theorem dispatch_computes {handler : Option (Handler σ)} (he : .errorHandler 404 ≠ ev) (hs : .staticFile ≠ ev)
    (hh : .handler ≠ ev) : Computes (· = ev) (server.dispatch handler) (server.dispatchEffect handler) := by
  cases handler with
  | none         => exact serveStatic_computes he hs
  | some handler => exact .emit hh (.run .skip)

variable {res : Response}

theorem finish_sends_iff : (∃ tr, (finish x : Process σ Event).Trace (tr ++ [.send res])) ↔ res = x.res := by
  have hq : (if x.req.getHeader "Connection" = some ("close" : Bytes) then .emit .erase .stop
      else .emit .rearm .stop : Process σ Event).Avoids (fun _ => True) (· = .send res) := by
    split
    · exact ⟨nofun, trivial⟩
    · exact ⟨nofun, trivial⟩
  rw [Process.exists_trace_iff, finish]
  constructor
  · intro h
    by_contra hn
    exact h ⟨fun he => hn (Event.send.inj he).symm, hq⟩
  · exact fun he h => h.1 (congrArg _ he.symm)

theorem not_terminate_sends : ¬∃ tr, (.emit .terminate .stop : Process σ Event).Trace (tr ++ [.send res]) := by
  rw [Process.exists_trace_iff, not_not]
  exact ⟨nofun, trivial⟩

theorem complete_sends_iff : (∃ tr, (server.complete e x).Trace (tr ++ [.send res])) ↔ server.Completes e x res := by
  cases e with
  | none   =>
    refine finish_sends_iff.trans ⟨fun he => he ▸ .ret, fun h => ?_⟩
    cases h
    rfl
  | some e =>
    cases e with
    | other     => exact iff_of_false not_terminate_sends nofun
    | exception =>
      cases h : server.errorHandlers 500 with
      | none         =>
        simp only [complete, h]
        refine finish_sends_iff.trans ⟨fun he => he ▸ .caught (.default h), fun hc => ?_⟩
        cases hc with
        | caught hp =>
          cases hp with
          | page h' _ => cases h.symm.trans h'
          | default   => rfl
      | some handler =>
        have hc : Computes (· = Event.send res)
            (fun (_ : Response) k => .emit (.errorHandler 500) ((handler x.req).exec k))
            fun _ => Outcome Effect.skip (handler x.req) :=
          .emit nofun (.run .skip)
        simp only [complete, h]
        apply (hc.exists_trace_iff (a := {})).trans
        constructor
        · intro ⟨e, res', hr, ht⟩
          cases e with
          | none   => exact finish_sends_iff.mp ht ▸ .caught (.page h hr)
          | some e => exact absurd ht not_terminate_sends
        · intro hc
          cases hc with
          | caught hp =>
            cases hp with
            | page h' hr =>
              cases h.symm.trans h'
              exact ⟨none, _, hr, finish_sends_iff.mpr rfl⟩
            | default h' => cases h.symm.trans h'

theorem handleParsed_sends_iff {router : Router σ} (hp : req.parseError = false) (hu : ¬WebSocket.isUpgrade req)
    (hr : server.router = some router) :
    (∃ tr, (Process.emit (.parse raw) (server.handleParsed req)).Trace (tr ++ [.send res])) ↔
      ∃ e x, server.Handled router req e x ∧ server.Completes e x res := by
  have hc (handler : Option (Handler σ)) :
      Computes (· = .send res)
        (fun x k => .emit (.parse raw) (chain .enter .next (server.dispatch handler) 0 server.middlewares x k))
        (chainEffect (server.dispatchEffect handler) server.middlewares) :=
    .emit nofun (.chain nofun nofun (dispatch_computes nofun nofun nofun))
  rw [handleParsed_of_router hp hu hr, (hc _).exists_trace_iff]
  simp only [complete_sends_iff, Handled]

-- The responses that are sent for a request.
theorem handleRequest_sends_iff {router : Router σ} (h : server.Accepts conn raw req) (hu : ¬WebSocket.isUpgrade req)
    (hr : server.router = some router) :
    (∃ tr, (server.handleRequest conn).Trace (tr ++ [.send res])) ↔
      ∃ e x, server.Handled router { req with clientIp := conn.clientIp } e x ∧ server.Completes e x res := by
  rw [handleRequest_of_accepts h]
  exact handleParsed_sends_iff h.2.2.2.2 hu hr

end Handled

section Pages

-- What is registered for a code.
inductive Page
  | html (content : Bytes)
  | json (content : Bytes)
  | file (filepath : Bytes)

def Page.register (route : ErrorRoute σ) : Page → Server σ
  | html content  => route.html content
  | json content  => route.json content
  | file filepath => route.file filepath

def withPages (server : Server σ) (pages : List (Int × Page)) : Server σ :=
  pages.foldl (fun server p => p.2.register ⟨server, p.1⟩) server

-- The error handlers of the server are pages.
def HasPages (server : Server σ) (pages : List (Int × Page)) : Prop :=
  ∃ base : Server σ, base.errorHandlers = (fun _ => none) ∧ server = base.withPages pages

-- The methods that fill a response with a page also set its status.
structure IsPage (handler : Request → Code σ Fault Response) : Prop where
  status : ∀ {req e res}, (Outcome Effect.skip (handler req) e res) → e = none ∧ res.statusCode = 200
  ends   : ∀ [Nonempty σ] req, ∃ res, Outcome Effect.skip (handler req) none res

theorem Page.register_eq (route : ErrorRoute σ) (page : Page) :
    ∃ handler, page.register route = route.server.onError route.code handler ∧ IsPage handler := by
  cases page with
  | html content  =>
    refine ⟨_, rfl, fun h => ?_, fun _ => ⟨_, .ret⟩⟩
    cases h
    exact ⟨rfl, rfl⟩
  | json content  =>
    refine ⟨_, rfl, fun h => ?_, fun _ => ⟨_, .ret⟩⟩
    cases h
    exact ⟨rfl, rfl⟩
  | file filepath =>
    refine ⟨_, rfl, fun h => ?_, fun {s} _ => ?_⟩
    · cases h with
      | act s h =>
        cases h
        exact ⟨rfl, ErrorRoute.fileResponse_statusCode⟩
    · have ⟨s⟩ := s
      exact ⟨_, .act s .ret⟩

theorem withPages_errorHandlers (hs : server.errorHandlers = fun _ => none) (code : Int) :
    (code ∈ pages.map Prod.fst → ∃ handler, (server.withPages pages).errorHandlers code = some handler ∧ IsPage handler) ∧
      (code ∉ pages.map Prod.fst → (server.withPages pages).errorHandlers code = none) := by
  induction pages using List.reverseRecOn with
  | nil => exact ⟨nofun, fun _ => congrFun hs code⟩
  | append_singleton pages p hi =>
    have ⟨handler, he, hp⟩ := p.2.register_eq ⟨server.withPages pages, p.1⟩
    have hw : server.withPages (pages ++ [p]) = (server.withPages pages).onError p.1 handler :=
      (List.foldl_concat ..).trans he
    rw [hw, onError_errorHandlers]
    by_cases hc : code = p.1
    case pos => exact ⟨fun _ => ⟨handler, if_pos hc, hp⟩, fun hn => absurd hc (by simp_all)⟩
    case neg =>
      rw [if_neg hc]
      simpa [hc] using hi

variable {pages : List (Int × Page)} {router : Router σ}

theorem HasPages.errorHandlers (hs : server.HasPages pages) (code : Int) :
    (code ∈ pages.map Prod.fst → ∃ handler, server.errorHandlers code = some handler ∧ IsPage handler) ∧
      (code ∉ pages.map Prod.fst → server.errorHandlers code = none) := by
  have ⟨base, hb, he⟩ := hs
  exact he ▸ withPages_errorHandlers hb code

theorem HasPages.exists_effect [Nonempty σ] (hs : server.HasPages pages) (code : Int) (x : Exchange) :
    ∃ x', server.PageEffect code x none x' := by
  have ⟨hin, hout⟩ := hs.errorHandlers code
  by_cases hm : code ∈ pages.map Prod.fst
  case pos =>
    have ⟨handler, h, hp⟩ := hin hm
    have ⟨res, hr⟩ := hp.ends x.req
    exact ⟨_, .page h hr⟩
  case neg => exact ⟨_, .default (hout hm)⟩

theorem HasPages.status_iff (hs : server.HasPages pages) (hc : code ≠ 200) (h : server.PageEffect code x none x') :
    x'.res.statusCode = code ↔ code ∉ pages.map Prod.fst := by
  have ⟨hin, hout⟩ := hs.errorHandlers code
  cases h with
  | page h hr =>
    have hm : code ∈ pages.map Prod.fst := by
      by_contra hm
      cases h.symm.trans (hout hm)
    have ⟨handler, h', hp⟩ := hin hm
    cases h.symm.trans h'
    have hst := (hp.status hr).2
    exact iff_of_false (fun he => hc (he.symm.trans hst)) (not_not.mpr hm)
  | default h =>
    refine iff_of_true rfl fun hm => ?_
    have ⟨_, h', _⟩ := hin hm
    cases h.symm.trans h'

-- A run in which each middleware calls its `next`, and leaves the status as it is behind the call, up to
-- where no file is served.
inductive Forwarded (server : Server σ) : List (Middleware σ) → Exchange → Exchange → Prop
  | unserved : (∀ files ∈ server.staticFiles, ∃ s, files.tryServe (server.fileSystem s) x.req x.res = none) →
    (server.PageEffect 404 x none x') → Forwarded server [] x x'
  | pass : (Pass (m x) y y' x') → (x'.res.statusCode = y'.res.statusCode) → (Forwarded server ms y y') →
    Forwarded server (m :: ms) x x'

-- There is no route for the request.
def Unmatched (server : Server σ) (router : Router σ) (req : Request) (x : Exchange) : Prop :=
  let resolved := router.resolve req.method req.path req
  resolved.1 = none ∧ server.Forwarded server.middlewares ⟨resolved.2, {}⟩ x

theorem staticEffect_of_unserved {files : List StaticFileServer}
    (h : ∀ f ∈ files, ∃ s, f.tryServe (server.fileSystem s) x.req x.res = none) (hp : server.PageEffect 404 x e x') :
    server.StaticEffect files x e x' := by
  induction files with
  | nil             => exact .missing hp
  | cons f files hi =>
    have ⟨⟨s, hf⟩, h⟩ := List.forall_mem_cons.mp h
    exact .skipped s hf (hi h)

theorem Forwarded.chainEffect (h : server.Forwarded ms x x') :
    Code.chainEffect (server.StaticEffect server.staticFiles) ms x none x' := by
  induction h with
  | unserved h hp   => exact staticEffect_of_unserved h hp
  | pass hp _ _ hi  => exact hp.outcome hi

theorem Forwarded.status_iff (hs : server.HasPages pages) (h : server.Forwarded ms x x') :
    x'.res.statusCode = 404 ↔ 404 ∉ pages.map Prod.fst := by
  induction h with
  | unserved _ hp   => exact hs.status_iff (by decide) hp
  | pass _ he _ hi  => exact he ▸ hi

theorem Unmatched.handled (h : server.Unmatched router req x) : server.Handled router req none x := by
  have ⟨hr, hf⟩ := h
  rw [Handled, hr]
  exact hf.chainEffect

def Sends (server : Server σ) (conn : Connection) (res : Response) : Prop :=
  ∃ tr, (server.handleRequest conn).Trace (tr ++ [.send res])

-- The status is the one of the error exactly when no page has been registered for it.
theorem status_iff_no_page [Nonempty σ] (hs : server.HasPages pages) (h : server.Accepts conn raw req)
    (hu : ¬WebSocket.isUpgrade req) (hr : server.router = some router) :
    (∀ x, server.Unmatched router { req with clientIp := conn.clientIp } x →
      server.Sends conn x.res ∧ (x.res.statusCode = 404 ↔ 404 ∉ pages.map Prod.fst)) ∧
    (∀ x, server.Handled router { req with clientIp := conn.clientIp } (some .exception) x →
      (∃ res, server.Completes (some .exception) x res) ∧
        ∀ res, server.Completes (some .exception) x res →
          server.Sends conn res ∧ (res.statusCode = 500 ↔ 500 ∉ pages.map Prod.fst)) := by
  constructor
  · intro x hx
    exact ⟨(handleRequest_sends_iff h hu hr).mpr ⟨none, x, hx.handled, .ret⟩, hx.2.status_iff hs⟩
  · intro x hx
    constructor
    · have ⟨_, hp⟩ := hs.exists_effect 500 x
      exact ⟨_, .caught hp⟩
    · intro res hc
      refine ⟨(handleRequest_sends_iff h hu hr).mpr ⟨_, x, hx, hc⟩, ?_⟩
      cases hc with
      | caught hp => exact hs.status_iff (by decide) hp

-- A server without routes and files, whose only middleware forwards everything.
def emptyServer : Server Unit where
  router      := some ⟨[], List.nodup_nil⟩
  middlewares := [fun x => .next x Code.forward]
  fileSystem  := fun _ => ⟨fun _ => none, fun _ => none⟩
  digest      := fun _ => []

def missingBytes : Bytes :=
  "GET /missing HTTP/1.1\r\n\r\n"

def missingRequest : Connection where
  clientIp := "9.9.9.9"
  arrivals := [some ⟨missingBytes, by decide, by decide⟩]

theorem emptyServer_accepts (hs : server.config = {}) :
    ∃ req, server.Accepts missingRequest missingBytes req ∧ ¬WebSocket.isUpgrade req := by
  have he : (Request.parse missingBytes {}).toOption.map (fun req => (req.parseError, WebSocket.isUpgrade req)) =
      some (false, false) := by
    decide +kernel
  have hr : (receive {} missingRequest.arrivals).1 = .raw missingBytes := by decide +kernel
  have ⟨req, h, he⟩ := Exn.exists_of_map_toOption he
  have ⟨ha, hu⟩ := Prod.mk.inj he
  exact ⟨req, ⟨by simp [missingRequest], hs ▸ hr, by decide, hs ▸ h, ha⟩, by simp [hu]⟩

theorem emptyServer_forwarded {server : Server Unit} (hm : server.middlewares = emptyServer.middlewares)
    (hf : server.staticFiles = []) (hp : server.PageEffect 404 x none x') : server.Forwarded server.middlewares x x' := by
  rw [hm]
  exact .pass (.next .ret) rfl (.unserved (by simp [hf]) hp)

def internalServer : Server Unit :=
  emptyServer.withPages [(500, .html "<h1>500 Internal Server Error</h1>")]

theorem status_iff_no_page_internal : ∃ req, internalServer.Accepts missingRequest missingBytes req ∧
    ∃ x : Exchange, internalServer.Sends missingRequest x.res ∧ (x.res.statusCode = 404 ↔ 404 ∉ [(500 : Int)]) := by
  have ⟨req, h, hu⟩ := emptyServer_accepts (rfl : internalServer.config = {})
  have hx : internalServer.Unmatched ⟨[], List.nodup_nil⟩ { req with clientIp := missingRequest.clientIp } _ :=
    ⟨rfl, emptyServer_forwarded rfl rfl (.default rfl)⟩
  exact ⟨req, h, _, (status_iff_no_page ⟨emptyServer, rfl, rfl⟩ h hu rfl).1 _ hx⟩

def notFoundServer : Server Unit :=
  emptyServer.withPages [(404, .html "<h1>404 Not Found</h1>")]

-- The page for the code is sent with the status of a success.
theorem not_status_of_page : ∃ req, notFoundServer.Accepts missingRequest missingBytes req ∧
    ¬WebSocket.isUpgrade req ∧
      ∃ x, notFoundServer.Unmatched ⟨[], List.nodup_nil⟩ { req with clientIp := missingRequest.clientIp } x ∧
        notFoundServer.Sends missingRequest x.res ∧ x.res.statusCode = 200 := by
  have ⟨req, h, hu⟩ := emptyServer_accepts (rfl : notFoundServer.config = {})
  have hx : notFoundServer.Unmatched ⟨[], List.nodup_nil⟩ { req with clientIp := missingRequest.clientIp } _ :=
    ⟨rfl, emptyServer_forwarded rfl rfl (.page rfl .ret)⟩
  exact ⟨req, h, hu, _, hx, (handleRequest_sends_iff h hu rfl).mpr ⟨none, _, hx.handled, .ret⟩, rfl⟩

end Pages

end YNet.Server
