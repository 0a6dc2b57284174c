import YNet.Core.Theorems.Server.Middlewares
import YNet.Lib.Calls
import YNet.Security.Middlewares

namespace YNet.Server

variable {σ : Type} {server : Server σ} {conn : Connection}

-- The same server, where the default error pages are visible as calls of error handlers, too.
def explicit (server : Server σ) : Server σ :=
  { server with errorHandlers := fun code => some ((server.errorHandlers code).getD fun _ => .ret (.error code)) }

def isErrorPage : Event → Bool
  | .errorHandler _ => true
  | _               => false

theorem isErrorPage_iff : isErrorPage e ↔ ∃ code, e = .errorHandler code := by
  cases e <;> simp [isErrorPage]

def HasHeader (key value : Bytes) (x : Exchange) : Prop :=
  x.res.headers.lookup key = some value

-- A response that is sent without the header.
def Lacks (key value : Bytes) : Event → Prop
  | .send res => res.headers.lookup key ≠ some value
  | _         => False

section Explicit

variable {k k' : Option Fault → Exchange → Process σ Event}

theorem notFound_hide (hk : ∀ e x, (k e x).hide isErrorPage = (k' e x).hide isErrorPage) :
    (server.explicit.notFound x k).hide isErrorPage = (server.notFound x k').hide isErrorPage := by
  cases h : server.errorHandlers 404 with
  | none =>
    simp only [notFound, explicit, h]
    exact hk none _
  | some handler =>
    simp only [notFound, explicit, h]
    refine Code.exec_hide fun e res => ?_
    cases e with
    | none   => exact hk none _
    | some e => exact hk (some e) x

theorem serveStatic_hide {files : List StaticFileServer}
    (hk : ∀ e x, (k e x).hide isErrorPage = (k' e x).hide isErrorPage) :
    (server.explicit.serveStatic files x k).hide isErrorPage = (server.serveStatic files x k').hide isErrorPage := by
  induction files with
  | nil           => exact notFound_hide hk
  | cons f files hi =>
    refine congrArg (Process.emit Event.staticFile) (congrArg (Process.act id) (funext fun s => ?_))
    have hfs : server.explicit.fileSystem = server.fileSystem := rfl
    rw [hfs]
    dsimp only
    cases f.tryServe (server.fileSystem s) x.req x.res with
    | none     => exact hi
    | some res => exact hk none _

theorem dispatch_hide (handler : Option (Handler σ)) (x : Exchange) (k k' : Option Fault → Exchange → Process σ Event)
    (hk : ∀ e x, (k e x).hide isErrorPage = (k' e x).hide isErrorPage) :
    (server.explicit.dispatch handler x k).hide isErrorPage = (server.dispatch handler x k').hide isErrorPage := by
  cases handler with
  | none         => exact serveStatic_hide hk
  | some handler => exact congrArg (Process.emit Event.handler) (Code.exec_hide hk)

theorem complete_hide : (server.explicit.complete e x).hide isErrorPage = (server.complete e x).hide isErrorPage := by
  cases e with
  | none   => rfl
  | some e =>
    cases e with
    | other     => rfl
    | exception =>
      cases h : server.errorHandlers 500 with
      | none =>
        simp only [complete, explicit, h]
        rfl
      | some handler =>
        simp only [complete, explicit, h]
        refine Code.exec_hide fun e res => ?_
        cases e <;> rfl

theorem handleParsed_hide (req : Request) :
    (server.explicit.handleParsed req).hide isErrorPage = (server.handleParsed req).hide isErrorPage := by
  by_cases hp : req.parseError
  case pos => simp only [handleParsed, if_pos hp]
  case neg =>
    by_cases hu : WebSocket.isUpgrade req
    case pos =>
      simp only [handleParsed, if_neg hp, if_pos hu]
      rfl
    case neg =>
      cases hr : server.router with
      | none =>
        have hr' : server.explicit.router = none := hr
        simp only [handleParsed, if_neg hp, if_neg hu, hr, hr']
      | some router =>
        have hr' : server.explicit.router = some router := hr
        simp only [handleParsed, if_neg hp, if_neg hu, hr, hr']
        exact Code.chain_hide (dispatch_hide _) fun _ _ => complete_hide

-- Nothing but the reports of the calls is different.
theorem handleRequest_hide (server : Server σ) (conn : Connection) :
    (server.explicit.handleRequest conn).hide isErrorPage = (server.handleRequest conn).hide isErrorPage := by
  have hc : server.explicit.config = server.config := rfl
  unfold handleRequest
  rw [hc]
  split
  case isTrue => rfl
  case isFalse =>
    split
    case h_1 => rfl
    case h_2 => rfl
    case h_3 raw _ =>
      split
      case isTrue => rfl
      case isFalse =>
        split
        case h_1 => rfl
        case h_2 req _ => exact congrArg (Process.emit (Event.parse raw)) (handleParsed_hide _)

end Explicit

-- In a run, the middleware at the position `i` calls its `next` with the exchange. The process is what
-- follows the call, and the handler is the one of the request.
def Called (server : Server σ) (conn : Connection) (handler : Option (Handler σ)) (i : Nat) (x : Exchange)
    (t : Process σ Event) : Prop :=
  ∃ raw req router k, server.Accepts conn raw req ∧ server.router = some router ∧
    let resolved := router.resolve req.method req.path { req with clientIp := conn.clientIp }
    resolved.1 = handler ∧
    Code.Entered .enter .next (server.dispatch resolved.1) server.middlewares ⟨resolved.2, {}⟩ server.complete
      (i + 1) x k ∧
    t = Code.chain .enter .next (server.dispatch resolved.1) (i + 1) (server.middlewares.drop (i + 1)) x k

-- The code that can run after the call keeps what is known of the exchange: the middlewares behind, the handler
-- of the request or, if there is none, the static files, and what the middlewares in front do when their calls
-- return. If they call `next` once more, then the middlewares behind them run again.
structure Leaves (server : Server σ) (handler : Option (Handler σ)) (i : Nat) (I : Exchange → Prop) : Prop where
  behind  : ∀ m ∈ server.middlewares.drop (i + 1), ∀ x, I x → (m x).Preserves I
  resumed : ∀ j ≤ i, ∀ m, server.middlewares[j]? = some m → ∀ x,
    (m x).Resumes (∀ m' ∈ server.middlewares.drop (j + 1), ∀ x, I x → (m' x).Preserves I) I
  handled : ∀ f, handler = some f → ∀ x, I x → (f x).Preserves I
  files   : handler = none → ∀ files ∈ server.staticFiles, ∀ fs x res, I x →
    files.tryServe fs x.req x.res = some res → I { x with res }

section Follows

variable {N : Nat → Process σ Event → Prop} {k : Option Fault → Exchange → Process σ Event}

-- A property of what follows the calls of `next`.
def AtNext (N : Nat → Process σ Event → Prop) (e : Event) (t : Process σ Event) : Prop :=
  ∀ i, e = .next i → N i t

def IsNext : Event → Prop
  | .next _ => True
  | _       => False

theorem AtNext.other (h : ¬IsNext e) : AtNext N e t := by
  intro i he
  subst he
  exact absurd trivial h

theorem finish_follows : (finish x : Process σ Event).Follows (AtNext N) := by
  refine ⟨.other id, ?_⟩
  split
  · exact ⟨.other id, trivial⟩
  · exact ⟨.other id, trivial⟩

theorem notFound_follows (hk : ∀ e x, (k e x).Follows (AtNext N)) : (server.notFound x k).Follows (AtNext N) := by
  unfold notFound
  split
  case h_2 => exact hk _ _
  case h_1 =>
    refine ⟨.other id, Code.exec_follows fun e res => ?_⟩
    cases e with
    | none   => exact hk _ _
    | some e => exact hk _ _

theorem serveStatic_follows {files : List StaticFileServer} (hk : ∀ e x, (k e x).Follows (AtNext N)) :
    (server.serveStatic files x k).Follows (AtNext N) := by
  induction files with
  | nil           => exact notFound_follows hk
  | cons f files hi =>
    refine ⟨.other id, fun s => ?_⟩
    dsimp only
    split
    · exact hk _ _
    · exact hi

theorem dispatch_follows (handler : Option (Handler σ)) (x : Exchange) (k : Option Fault → Exchange → Process σ Event)
    (hk : ∀ e x, (k e x).Follows (AtNext N)) : (server.dispatch handler x k).Follows (AtNext N) := by
  cases handler with
  | none   => exact serveStatic_follows hk
  | some _ => exact ⟨.other id, Code.exec_follows hk⟩

theorem complete_follows : (server.complete e x).Follows (AtNext N) := by
  unfold complete
  split
  case h_1 => exact finish_follows
  case h_2 => exact ⟨.other id, trivial⟩
  case h_3 =>
    split
    case h_2 => exact finish_follows
    case h_1 =>
      refine ⟨.other id, Code.exec_follows fun e res => ?_⟩
      cases e with
      | none   => exact finish_follows
      | some e => exact ⟨.other id, trivial⟩

theorem handleWebSocket_follows : (server.handleWebSocket req).Follows (AtNext N) := by
  unfold handleWebSocket
  split
  case h_2 => exact ⟨.other id, .other id, trivial⟩
  case h_1 =>
    refine ⟨.other id, .other id, Code.exec_follows fun e _ => ?_⟩
    cases e with
    | none   => exact ⟨.other id, trivial⟩
    | some e => exact ⟨.other id, trivial⟩

theorem handleParsed_follows (ha : server.Accepts conn raw req) :
    (server.handleParsed { req with clientIp := conn.clientIp }).Follows
      (AtNext fun i t => ∃ handler x, server.Called conn handler i x t) := by
  have hp : ({ req with clientIp := conn.clientIp } : Request).parseError = false := ha.2.2.2.2
  by_cases hu : WebSocket.isUpgrade { req with clientIp := conn.clientIp }
  case pos =>
    rw [handleParsed_of_upgrade _ _ hp hu]
    exact handleWebSocket_follows
  case neg =>
    cases hr : server.router with
    | none =>
      rw [handleParsed, if_neg (by simp [ha.2.2.2.2]), if_neg hu, hr]
      exact ⟨.other id, .other id, trivial⟩
    | some router =>
      rw [handleParsed_of_router hp hu hr]
      refine Code.chain_follows (fun i x k h j he => ?_) (fun _ _ => .other id) (dispatch_follows _)
        .start fun _ _ => complete_follows
      cases he
      exact ⟨_, x, raw, req, router, k, ha, hr, rfl, h, rfl⟩

-- Every call of a middleware's `next` is made with some exchange.
theorem handleRequest_follows (server : Server σ) (conn : Connection) :
    (server.handleRequest conn).Follows (AtNext fun i t => ∃ handler x, server.Called conn handler i x t) := by
  by_cases hh : conn.handshake = some false
  case pos =>
    rw [handleRequest, if_pos hh]
    exact ⟨.other id, trivial⟩
  case neg =>
    rw [handleRequest, if_neg hh]
    split
    case h_1 => exact ⟨.other id, .other id, trivial⟩
    case h_2 =>
      refine ⟨.other id, ?_⟩
      split
      · exact ⟨.other id, .other id, trivial⟩
      · exact ⟨.other id, trivial⟩
    case h_3 raw hraw =>
      split
      case isTrue => exact ⟨.other id, trivial⟩
      case isFalse hn =>
        refine ⟨.other id, ?_⟩
        split
        case h_1 => exact ⟨.other id, trivial⟩
        case h_2 req hreq =>
          by_cases hp : req.parseError
          case pos =>
            simp only [handleParsed, hp]
            exact ⟨.other id, .other id, trivial⟩
          case neg => exact handleParsed_follows ⟨hh, hraw, hn, hreq, by simpa using hp⟩

end Follows

section Survival

variable {key value : Bytes} {k : Option Fault → Exchange → Process σ Event}

abbrev Shows (key value : Bytes) (t : Process σ Event) : Prop :=
  t.AvoidsUntil (fun e => isErrorPage e) (Lacks key value)

theorem finish_shows (hx : HasHeader key value x) : Shows key value (finish x : Process σ Event) := by
  refine .inr ⟨not_not.mpr hx, ?_⟩
  split
  · exact .inr ⟨id, trivial⟩
  · exact .inr ⟨id, trivial⟩

-- An exception ends in an error page, or with the process.
theorem complete_shows (hx : HasHeader key value x) : Shows key value (server.explicit.complete e x) := by
  cases e with
  | none   => exact finish_shows hx
  | some e =>
    cases e with
    | exception => exact .inl rfl
    | other     => exact .inr ⟨id, trivial⟩

variable {I : Exchange → Prop} {handler : Option (Handler σ)} (h : server.Leaves handler i I)
include h

theorem serveStatic_shows {files : List StaticFileServer} (hn : handler = none) (hf : ∀ f ∈ files, f ∈ server.staticFiles)
    (hx : I x) (hk : ∀ e x, I x → Shows key value (k e x)) : Shows key value (server.explicit.serveStatic files x k) := by
  induction files with
  | nil           => exact .inl rfl
  | cons f files hi =>
    have ⟨hmem, hf⟩ := List.forall_mem_cons.mp hf
    refine .inr ⟨id, fun s => ?_⟩
    dsimp only
    split
    case h_1 res hres => exact hk _ _ (h.files hn f hmem _ _ _ hx hres)
    case h_2          => exact hi hf

theorem dispatch_shows (hx : I x) (hk : ∀ e x, I x → Shows key value (k e x)) :
    Shows key value (server.explicit.dispatch handler x k) := by
  cases hh : handler with
  | none   => exact serveStatic_shows h hh (fun _ hf => hf) hx hk
  | some f => exact .inr ⟨id, Code.exec_avoidsUntil (h.handled f hh x hx).leaves hk⟩

variable (hI : ∀ x, I x → HasHeader key value x)
include hI

-- What follows a call shows the header when the code in front of it gets it back.
theorem entered_shows (he : Code.Entered .enter .next (server.explicit.dispatch handler) server.middlewares x₀
    server.explicit.complete j x k) (hj : j ≤ i + 1) : ∀ e x, I x → Shows key value (k e x) := by
  induction he with
  | start => exact fun _ x hx => complete_shows (hI x hx)
  | @call j x k m x' rest he hm hc hi =>
    intro e x hx
    have hle : j ≤ i := Nat.le_of_succ_le_succ hj
    have hleaves := (h.resumed j hle m hm _).of_calls hc hx (e := e)
    refine Code.run_avoidsUntil hleaves (fun hmay a k ha hk => ?_) (hi (Nat.le_succ_of_le hle))
    exact .inr ⟨id, Code.chain_avoidsUntil (fun _ => id) (fun _ => id) hmay
      (fun a k ha hk => dispatch_shows h ha hk) ha hk⟩

theorem called_shows (hc : server.explicit.Called conn handler i x t) (hx : I x) : Shows key value t := by
  obtain ⟨raw, req, router, k, ha, hr, rfl, he, ht⟩ := hc
  rw [ht]
  exact Code.chain_avoidsUntil (fun _ => id) (fun _ => id) h.behind (fun a k ha hk => dispatch_shows h ha hk) hx
    (entered_shows h hI he le_rfl)

end Survival

-- The headers of the exchange that is handed to `next` are in the response that is sent, if the code that
-- runs then leaves them alone and neither error page has been called. It is enough that this code keeps a property
-- of the exchange from which the header follows, so that it may as well depend on the request. The first two parts
-- are about the runs of the server: the explicit one differs in nothing but the reports of the error pages, and
-- whenever a middleware calls its `next`, it does so with some exchange.
theorem headers_survive (server : Server σ) (conn : Connection) :
    (server.explicit.handleRequest conn).hide isErrorPage = (server.handleRequest conn).hide isErrorPage ∧
    (∀ i tr t, (server.explicit.handleRequest conn).Reaches tr (.emit (.next i) t) →
      ∃ handler x, server.explicit.Called conn handler i x t) ∧
    ∀ handler i x t key value (I : Exchange → Prop), server.explicit.Called conn handler i x t → I x →
      (∀ x, I x → x.res.headers.lookup key = some value) → server.Leaves handler i I →
      ∀ tr res, t.Trace (tr ++ [.send res]) → (∀ code, .errorHandler code ∉ tr) → res.headers.lookup key = some value := by
  refine ⟨handleRequest_hide server conn, fun i tr t ht => ?_, ?_⟩
  · exact (handleRequest_follows _ _).of_reaches ht i rfl
  · intro handler i x t key value I hc hx hI h tr res ht hn
    refine not_not.mp (((called_shows h hI hc hx).of_trace ht fun e he => ?_))
    rcases List.mem_append.mp he with he | he
    · rw [isErrorPage_iff]
      rintro ⟨code, rfl⟩
      exact hn code he
    · cases List.mem_singleton.mp he
      exact Bool.false_ne_true

section Sample

def getChunk : Chunk :=
  ⟨"GET /a HTTP/1.1\r\n\r\n", by decide, by decide⟩

def getConnection : Connection where
  clientIp := []
  arrivals := [some getChunk]

-- A server with one route and the headers of `secureHeaders`.
def securedServer (path : Bytes) : Server Unit where
  router      := some ⟨[(Bytes.ofString "GET:" ++ path, .ret)], List.nodup_singleton _⟩
  middlewares := [secureHeaders "default-src 'self'"]
  fileSystem  := fun _ => ⟨fun _ => none, fun _ => none⟩
  digest      := fun _ => []

-- The response that the middleware hands over.
def securedResponse : Response :=
  (((({} : Response).header "X-Content-Type-Options" "nosniff").header "X-Frame-Options" "DENY").header
    "Referrer-Policy" "strict-origin-when-cross-origin").header "Cache-Control" "no-store"
    |>.header "Content-Security-Policy" "default-src 'self'"

theorem securedResponse_header :
    securedResponse.headers.lookup ("X-Frame-Options" : Bytes) = some ("DENY" : Bytes) := by
  decide +kernel

theorem get_accepted (path : Bytes) : ∃ req, (securedServer path).Accepts getConnection getChunk.bytes req ∧
    req.method = "GET" ∧ req.path = "/a" ∧ WebSocket.isUpgrade req = false := by
  have he : (Request.parse getChunk.bytes {}).toOption.map
      (fun req => (req.parseError, req.method, req.path, WebSocket.isUpgrade req))
        = some (false, ("GET" : Bytes), ("/a" : Bytes), false) := by
    decide +kernel
  have ⟨req, h, hr⟩ := Exn.exists_of_map_toOption he
  have ⟨ha, hr⟩ := Prod.mk.inj hr
  have ⟨hm, hr⟩ := Prod.mk.inj hr
  have ⟨hp, hu⟩ := Prod.mk.inj hr
  have hrecv : (receive {} getConnection.arrivals).1 = .raw getChunk.bytes := by decide +kernel
  exact ⟨req, ⟨by simp [getConnection], hrecv, by decide, h, ha⟩, hm, hp, hu⟩

theorem forward_resumes {φ : Type} {Q : Exchange → Prop} : (Code.next x Code.forward : Code σ φ Exchange).Resumes may Q := by
  intro e a
  cases e with
  | none   => exact ⟨trivial, id⟩
  | some _ => exact ⟨trivial, id⟩

theorem securedServer_leaves {I : Exchange → Prop} {handler : Option (Handler Unit)}
    (hh : ∀ f, handler = some f → f = .ret) : (securedServer path).Leaves handler 0 I where
  behind  := by simp [securedServer]
  resumed := by
    intro j hj m hm x
    cases Nat.le_zero.mp hj
    cases hm
    exact forward_resumes
  handled := by
    intro f hf x hx
    cases hh f hf
    exact hx
  files   := by simp [securedServer]

theorem headers_survive_route : ∃ handler x t, (securedServer "/a").explicit.Called getConnection handler 0 x t ∧
    x.res = securedResponse ∧ ∀ tr res, t.Trace (tr ++ [.send res]) → (∀ code, .errorHandler code ∉ tr) →
      res.headers.lookup ("X-Frame-Options" : Bytes) = some ("DENY" : Bytes) := by
  have ⟨req, ha, _⟩ := get_accepted "/a"
  have ⟨handler, x, t, hh, hc, hx⟩ : ∃ handler x t, (∀ f, handler = some f → f = .ret) ∧
      (securedServer "/a").explicit.Called getConnection handler 0 x t ∧ x.res = securedResponse := by
    refine ⟨_, _, _, fun f hf => ?_, ⟨getChunk.bytes, req, _, _, ha, rfl, rfl, .call .start rfl .here, rfl⟩, rfl⟩
    have ⟨r, hm, he, _⟩ := Router.matches_of_resolve hf
    cases List.mem_singleton.mp hm
    exact he.symm
  have hlookup : HasHeader "X-Frame-Options" "DENY" x := by
    rw [HasHeader, hx]
    exact securedResponse_header
  exact ⟨handler, x, t, hc, hx,
    (headers_survive _ _).2.2 handler 0 x t _ _ _ hc hlookup (fun _ => id) (securedServer_leaves hh)⟩

theorem trace_notFound {handler : Option (Handler Unit)} (hn : handler = none) :
    (Code.chain .enter .next ((securedServer "/b").dispatch handler) 0 (securedServer "/b").middlewares
      ⟨req, {}⟩ (securedServer "/b").complete).Trace [.enter 0, .next 0, .send (.error 404)] := by
  subst hn
  exact .emit (.emit (.emit .nil))

-- The default page for an unknown path does not have the headers that have been set.
theorem notFound_lacks_headers : ((securedServer "/b").handleRequest getConnection).Trace
      [.parse getChunk.bytes, .enter 0, .next 0, .send (.error 404)] ∧
    (∀ req, (securedServer "/b").middlewares.map (fun m => m ⟨req, {}⟩) = [.next ⟨req, securedResponse⟩ .forward]) ∧
    securedResponse.headers.lookup ("X-Frame-Options" : Bytes) = some ("DENY" : Bytes) ∧
    (Response.error 404).headers.lookup ("X-Frame-Options" : Bytes) = none := by
  have ⟨req, ha, hm, hp, hu⟩ := get_accepted "/b"
  refine ⟨?_, fun _ => rfl, securedResponse_header, by decide +kernel⟩
  rw [handleRequest_of_accepts ha]
  have he : ({ req with clientIp := getConnection.clientIp } : Request).parseError = false := ha.2.2.2.2
  have hu' : ¬WebSocket.isUpgrade { req with clientIp := getConnection.clientIp } := by
    change ¬WebSocket.isUpgrade req = true
    simp [hu]
  rw [handleParsed_of_router he hu' rfl]
  refine .emit (trace_notFound ?_)
  change (Router.resolve _ req.method req.path _).1 = none
  rw [hm, hp]
  rfl

end Sample

end YNet.Server
