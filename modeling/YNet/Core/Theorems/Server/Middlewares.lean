import YNet.Core.Server
import YNet.Security.PathGuard

namespace YNet

-- Code of the application that answers a request.
def Event.IsApp : Event → Prop
  | handler | staticFile | webSocket => True
  | _                                => False

namespace Server

variable {σ : Type} {server : Server σ}

-- Every middleware is run and calls its `next`, in the order of registration.
def passes (server : Server σ) : List Event :=
  Code.passes .enter .next 0 server.middlewares.length

-- The connection delivers a request that is accepted.
def Accepts (server : Server σ) (conn : Connection) (raw : Bytes) (req : Request) : Prop :=
  conn.handshake ≠ some false ∧ (receive server.config conn.arrivals).1 = .raw raw ∧ raw ≠ [] ∧
    Request.parse raw server.config = .ok req ∧ req.parseError = false

-- The request asks for an upgrade on a path with a handler.
def Upgrades (server : Server σ) (conn : Connection) : Prop :=
  ∃ raw req, server.Accepts conn raw req ∧ WebSocket.isUpgrade req ∧ (server.wsRoutes req.path).isSome

section Cases

-- A process without any code of the application, and without steps on the shared state.
structure Quiet (t : Process σ Event) : Prop where
  avoids : ∀ I, t.Avoids I Event.IsApp
  keeps  : ∀ I, t.Keeps I

theorem Quiet.stop : Quiet (.stop : Process σ Event) :=
  ⟨fun _ => trivial, fun _ => trivial⟩

theorem Quiet.emit {t : Process σ Event} (he : ¬e.IsApp) (h : Quiet t) : Quiet (.emit e t) :=
  ⟨fun I => ⟨he, h.avoids I⟩, h.keeps⟩

theorem Quiet.erase : Quiet (.emit .erase .stop : Process σ Event) :=
  .emit id .stop

theorem finish_quiet : Quiet (finish x : Process σ Event) := by
  refine .emit id ?_
  split
  · exact .erase
  · exact .emit id .stop

theorem handleParsed_of_router {router : Router σ} (hp : req.parseError = false)
    (hu : ¬WebSocket.isUpgrade req) (hr : server.router = some router) :
    server.handleParsed req = Code.chain .enter .next
      (server.dispatch (router.resolve req.method req.path req).1) 0 server.middlewares
      ⟨(router.resolve req.method req.path req).2, {}⟩ server.complete := by
  rw [handleParsed, if_neg (by simp [hp]), if_neg hu, hr]

theorem handleParsed_cases (server : Server σ) (req : Request) :
    Quiet (server.handleParsed req) ∨
      (req.parseError = false ∧ WebSocket.isUpgrade req ∧ ∃ handler, server.wsRoutes req.path = some handler) ∨
      ∃ handler req', (∀ h, handler = some h → ∃ router r, server.router = some router ∧ r ∈ router.routes ∧ r.2 = h) ∧
        req'.clientIp = req.clientIp ∧ server.handleParsed req
          = Code.chain .enter .next (server.dispatch handler) 0 server.middlewares ⟨req', {}⟩ server.complete := by
  by_cases hp : req.parseError
  case pos =>
    rw [handleParsed, if_pos hp]
    exact .inl (.emit id .erase)
  case neg =>
    by_cases hu : WebSocket.isUpgrade req
    case pos =>
      rw [handleParsed, if_neg hp, if_pos hu]
      cases hw : server.wsRoutes req.path
      case none =>
        refine .inl ?_
        simp only [handleWebSocket, hw]
        exact .emit id .erase
      case some handler => exact .inr (.inl ⟨by simpa using hp, hu, handler, rfl⟩)
    case neg =>
      cases hr : server.router
      case none =>
        rw [handleParsed, if_neg hp, if_neg hu, hr]
        exact .inl (.emit id .erase)
      case some router =>
        refine .inr (.inr ⟨_, (router.resolve req.method req.path req).2, fun h hh => ?_, ?_,
          handleParsed_of_router (by simpa using hp) hu hr⟩)
        · have ⟨r, hm, he, _⟩ := Router.matches_of_resolve hh
          exact ⟨router, r, rfl, hm, he⟩
        · have ⟨params, he⟩ := router.resolve_frame req.method req.path req
          rw [he]

theorem handleRequest_cases (server : Server σ) (conn : Connection) :
    Quiet (server.handleRequest conn) ∨
      ∃ raw req, server.Accepts conn raw req ∧
        server.handleRequest conn = .emit (.parse raw) (server.handleParsed { req with clientIp := conn.clientIp }) := by
  unfold handleRequest
  by_cases hs : conn.handshake = some false
  case pos =>
    rw [if_pos hs]
    exact .inl .erase
  case neg =>
    rw [if_neg hs]
    split
    case h_1 => exact .inl (.emit id .erase)
    case h_2 =>
      refine .inl (.emit id ?_)
      split
      · exact .emit id .erase
      · exact .erase
    case h_3 raw hr =>
      by_cases hn : raw = []
      case pos =>
        rw [if_pos hn]
        exact .inl .erase
      case neg =>
        rw [if_neg hn]
        split
        case h_1 => exact .inl (.emit id (.emit id .stop))
        case h_2 req hq =>
          by_cases hp : req.parseError
          case neg => exact .inr ⟨raw, req, ⟨hs, hr, hn, hq, by simpa using hp⟩, rfl⟩
          case pos =>
            refine .inl (.emit id ?_)
            rw [handleParsed, if_pos hp]
            exact .emit id .erase

end Cases

section Gated

theorem complete_avoids {I : σ → Prop} : (server.complete e x).Avoids I Event.IsApp := by
  unfold complete
  split
  case h_1 => exact finish_quiet.avoids I
  case h_2 => exact (Quiet.emit id .stop).avoids I
  case h_3 =>
    split
    case h_2 => exact finish_quiet.avoids I
    case h_1 =>
      refine ⟨id, Code.exec_avoids fun e res => ?_⟩
      cases e
      case none => exact finish_quiet.avoids I
      case some => exact (Quiet.emit id .stop).avoids I

theorem handleRequest_gated (h : server.Upgrades conn → server.middlewares = []) :
    (server.handleRequest conn).Gated Event.IsApp server.passes := by
  rcases handleRequest_cases server conn with hq | ⟨raw, req, ha, he⟩
  case inl => exact (hq.avoids _).gated
  case inr =>
    rw [he]
    refine .emit_other id ?_
    rcases handleParsed_cases server { req with clientIp := conn.clientIp }
      with hq | ⟨_, hu, handler, hr⟩ | ⟨handler, req', _, _, he⟩
    case inl => exact (hq.avoids _).gated
    case inr.inl =>
      rw [passes, h ⟨raw, req, ha, hu, by simp [hr]⟩]
      exact .nil
    case inr.inr =>
      rw [he]
      exact Code.chain_gated (fun _ => id) (fun _ => id) fun _ _ => complete_avoids.gated

theorem handleRequest_of_accepts (h : server.Accepts conn raw req) :
    server.handleRequest conn
      = .emit (.parse raw) (server.handleParsed { req with clientIp := conn.clientIp }) := by
  have ⟨hs, hr, hn, hq, _⟩ := h
  simp only [handleRequest, if_neg hs, hr, if_neg hn, hq]

theorem handleParsed_of_upgrade (server : Server σ) (req : Request) (hp : req.parseError = false) (hu : WebSocket.isUpgrade req) :
    server.handleParsed req = server.handleWebSocket req := by
  rw [handleParsed, if_neg (by simp [hp]), if_pos hu]

-- The handler of an upgraded connection runs without the middlewares.
theorem handleRequest_of_upgrades (h : server.Upgrades conn) :
    ∃ raw data t, server.handleRequest conn = .emit (.parse raw) (.emit (.write data) (.emit .webSocket t)) := by
  have ⟨raw, req, ha, hu, hw⟩ := h
  have ⟨handler, hw⟩ := Option.isSome_iff_exists.mp hw
  have hp := handleParsed_of_upgrade server { req with clientIp := conn.clientIp } ha.2.2.2.2 hu
  rw [handleRequest_of_accepts ha, hp]
  simp only [handleWebSocket, hw]
  exact ⟨raw, _, _, rfl⟩

theorem handleRequest_gated_iff :
    (server.handleRequest conn).Gated Event.IsApp server.passes ↔
      ¬(server.Upgrades conn ∧ server.middlewares ≠ []) := by
  refine ⟨fun h ⟨hu, hm⟩ => ?_, fun h => handleRequest_gated fun hu => by_contra fun hm => h ⟨hu, hm⟩⟩
  have ⟨raw, data, t, ht⟩ := handleRequest_of_upgrades hu
  rw [ht] at h
  have hs := h [.parse raw, .write data] .webSocket [] (.emit (.emit (.emit .nil))) trivial
  have ⟨m, ms, hm⟩ := List.exists_cons_of_ne_nil hm
  have := hs.subset (a := .enter 0) (by simp [passes, hm, Code.passes])
  simp at this

end Gated

section Keeps

variable {I : σ → Prop}

-- The code of the application preserves a property of the shared state.
structure AppKeeps (server : Server σ) (I : σ → Prop) : Prop where
  middlewares   : ∀ m ∈ server.middlewares, ∀ x, (m x).Keeps I
  router        : ∀ router ∈ server.router, ∀ r ∈ router.routes, ∀ x, (r.2 x).Keeps I
  wsRoutes      : ∀ path, ∀ handler ∈ server.wsRoutes path, handler.Keeps I
  errorHandlers : ∀ code, ∀ handler ∈ server.errorHandlers code, ∀ req, (handler req).Keeps I

variable (h : server.AppKeeps I)
include h

theorem notFound_keeps (hk : ∀ e x, (k e x).Keeps I) : (server.notFound x k).Keeps I := by
  unfold notFound
  split
  case h_1 handler hh =>
    refine Code.exec_keeps (h.errorHandlers 404 handler hh x.req) fun e res => ?_
    cases e <;> exact hk _ _
  case h_2 => exact hk _ _

theorem serveStatic_keeps {files : List StaticFileServer} (hk : ∀ e x, (k e x).Keeps I) :
    (server.serveStatic files x k).Keeps I := by
  induction files
  case nil            => exact notFound_keeps h hk
  case cons f files hi =>
    refine ⟨fun _ => id, fun s => ?_⟩
    dsimp only
    split
    · exact hk _ _
    · exact hi

theorem complete_keeps : (server.complete e x).Keeps I := by
  unfold complete
  split
  case h_1 => exact finish_quiet.keeps I
  case h_2 => trivial
  case h_3 =>
    split
    case h_2 => exact finish_quiet.keeps I
    case h_1 handler hh =>
      refine Code.exec_keeps (h.errorHandlers 500 handler hh x.req) fun e res => ?_
      cases e
      case none => exact finish_quiet.keeps I
      case some => trivial

theorem handleRequest_keeps : (server.handleRequest conn).Keeps I := by
  rcases handleRequest_cases server conn with hq | ⟨raw, req, ha, he⟩
  case inl => exact hq.keeps I
  case inr =>
    rw [he]
    rcases handleParsed_cases server { req with clientIp := conn.clientIp }
      with hq | ⟨hp, hu, handler, hr⟩ | ⟨handler, req', hh, _, he⟩
    case inl => exact hq.keeps I
    case inr.inl =>
      rw [handleParsed_of_upgrade _ _ hp hu]
      simp only [handleWebSocket, hr]
      refine Code.exec_keeps (h.wsRoutes _ handler hr) fun e _ => ?_
      cases e <;> trivial
    case inr.inr =>
      rw [he]
      refine Code.chain_keeps h.middlewares (fun x k hk => ?_) fun e x => complete_keeps h
      cases handler
      case none         => exact serveStatic_keeps h hk
      case some handler =>
        have ⟨router, r, hr, hm, he⟩ := hh handler rfl
        exact Code.exec_keeps (he ▸ h.router router hr r hm x) hk

end Keeps

end Server
end YNet
