import YNet.Security.Middlewares
import YNet.Security.PathGuard
import YNet.Security.RateLimiter
import YNet.Security.SessionRun

-- The middlewares that `App` registers, in the order of the registrations.
namespace YNet.App

inductive Registered
  | cors (origin : Bytes)
  | rateLimit (maxRequests periodSeconds : Int)
  | logger
  | csrf
  | sanitizer
  | secureHeaders (csp : Bytes)
  | session
  | pathGuard

-- The shared state, with the buckets of each rate limiter and the next random number, and with what the memory
-- of a freed body contains. The settings of the guard do not change.
structure Shared where
  blacklist : Finset Bytes
  buckets   : Nat → Buckets
  sessions  : Sessions
  steady    : ℚ
  time      : Int
  random    : Bytes
  freed     : Memory

-- A request refers to the session object that has been set, and to none at first.
structure Visit extends Exchange where
  session : Option Nat := none

inductive Trouble
  | fault (e : Fault)
  | badAccess
  | nullSession

abbrev Handling :=
  Code Shared Trouble Visit

-- A middleware that does not touch the session. It does not come back from a call in which a pointer that
-- is null or out of the mapped memory is dereferenced.
def plain : Code Shared Fault Exchange → Option Nat → Handling
  | .ret x, session           => .ret { x with session }
  | .throw e x, session       => .throw (.fault e) { x with session }
  | .hang, _                  => .hang
  | .act update rest, session => .act update fun s => plain (rest s) session
  | .next x rest, session     =>
    .next { x with session } fun
      | none, v              => plain (rest none v.toExchange) v.session
      | some (.fault e), v   => plain (rest (some e) v.toExchange) v.session
      | some .badAccess, v   => .throw .badAccess v
      | some .nullSession, v => .throw .nullSession v

-- With a period of zero, the tokens are no number, and no request is forwarded.
def rateLimit (i : Nat) (maxRequests periodSeconds : Int) (x : Exchange) : Code Shared Fault Exchange :=
  if periodSeconds = 0 then .ret { x with res := (x.res.status 429).setBody "Too Many Requests" }
  else
    (RateLimiter.rateLimiter maxRequests periodSeconds (fun t => t) x).zoom (fun s => (s.buckets i, s.steady))
      fun b s => { s with buckets := Function.update s.buckets i b.1 }

def pathGuard (guard : PathGuard) (x : Exchange) : Code Shared Fault Exchange :=
  (PathGuard.toMiddleware x).zoom (fun s => ({ guard with blacklist := s.blacklist }, ()))
    fun g s => { s with blacklist := g.1.blacklist }

-- The section under the shared lock, and the one under the exclusive lock if no session is found.
def session (o : Session.Options) (v : Visit) : Handling :=
  match Session.sessionId o.cookieName v.req with
  | .error _ => .throw (.fault .exception) v
  | .ok sid  =>
    .act (fun s => { s with sessions := (s.sessions.find o.ttl s.time sid).2 }) fun s =>
      match (s.sessions.find o.ttl s.time sid).1 with
      | some ref => .next { v with session := some ref } .forward
      | none     =>
        .act (fun s => { s with sessions := (s.sessions.renew o.ttl s.time sid s.random).2 }) fun s =>
          let res := v.res.header "Set-Cookie" (Session.setCookie o s.random)
          .next { v with res, session := some (s.sessions.renew o.ttl s.time sid s.random).1 } .forward

def csrf (v : Visit) : Handling :=
  if v.req.method = ("GET" : Bytes) then
    .act id fun s =>
      match v.session with
      | none     => .throw .nullSession v
      | some ref =>
        .act (fun s' => { s' with sessions := s'.sessions.modify ref (·.set Csrf.key s.random) }) fun _ =>
          let req := { v.req with csrfToken := s.random }
          .next { v with req, res := v.res.header "X-CSRF-Token" s.random } .forward
  else if Csrf.Guards v.req then
    .act id fun s =>
      match Csrf.token s.freed v.req with
      | none       => .throw .badAccess v
      | some token =>
        match v.session with
        | none     => .throw .nullSession v
        | some ref =>
          .act id fun s' =>
            if Csrf.accepts token ((s'.sessions.objects ref).get Csrf.key) then .next v .forward
            else .ret { v with res := (v.res.status 403).setBody "Forbidden" }
  else .ret v

def Registered.middleware (guard : PathGuard) (i : Nat) : Registered → Visit → Handling
  | cors origin, v                         => plain (YNet.cors [origin] v.toExchange) v.session
  | rateLimit maxRequests periodSeconds, v => plain (App.rateLimit i maxRequests periodSeconds v.toExchange) v.session
  | logger, v                              => plain (YNet.logger v.toExchange) v.session
  | csrf, v                                => App.csrf v
  | sanitizer, v                           => plain (YNet.sanitizer v.toExchange) v.session
  | secureHeaders csp, v                   => plain (YNet.secureHeaders csp v.toExchange) v.session
  | session, v                             => App.session {} v
  | pathGuard, v                           => plain (App.pathGuard guard v.toExchange) v.session

-- The calls of the middlewares, and how the outermost one ends.
inductive Event
  | enter (i : Nat)
  | next (i : Nat)
  | ended (trouble : Option Trouble)

def handle (guard : PathGuard) (registered : List Registered) (handler : Handler Shared) (req : Request) :
    Process Shared Event :=
  Code.chain .enter .next (fun v k => (plain (handler v.toExchange) v.session).exec k) 0
    (registered.mapIdx (Registered.middleware guard)) { req, res := {} } fun e _ => .emit (.ended e) .stop

end YNet.App
