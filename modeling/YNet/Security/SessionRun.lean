import YNet.Lib.Run
import YNet.Security.Csrf

-- Requests that pass through `Session` and then through `Csrf`, interleaved at their critical
-- sections with each other, with the cleanup thread, and with the application.
namespace YNet.Session

structure Options where
  ttl         : Int   := 3600
  cookieName  : Bytes := "session_id"
  cookieFlags : Bytes := "HttpOnly; Secure; SameSite=Strict"

-- How far a request has come. A new session comes with a `Set-Cookie` header.
inductive Phase
  | idle
  | missed (req : Request) (sessionId : Option Bytes)
  | bound (req : Request) (ref : Nat) (setCookie : Option Bytes)
  | done

structure World where
  sessions : Sessions
  now      : Int
  phase    : Nat → Phase

def World.start (now : Int) : World where
  sessions := .empty
  now      := now
  phase    := fun _ => .idle

inductive Act
  | tick (now : Int)
  | cleanup
  | lookup (k : Nat) (sessionId : Option Bytes) (now : Int) (found : Option Nat)
  | create (k : Nat) (id : Bytes) (now : Int) (ref : Nat)
  | issue (k ref : Nat) (token : Bytes)
  | verify (k ref : Nat) (req : Request) (forwarded : Bool)
  | write (ref : Nat) (key value : Bytes)

def setCookie (o : Options) (id : Bytes) : Bytes :=
  o.cookieName ++ Bytes.ofString "=" ++ id ++ Bytes.ofString "; " ++ o.cookieFlags

-- The clock stands still within a section. The random numbers are parts of the labels. The memory that the
-- body of a request has been in can contain anything when the token is read, and where it is not mapped, the
-- program is at its end.
inductive Step (o : Options) : World → Act → World → Prop
  | tick :
    (s.now ≤ now) → Step o s (.tick now) { s with now }
  | cleanup :
    Step o s .cleanup { s with sessions := s.sessions.cleanup s.now }
  | hit :
    (s.phase k = .idle) → (sessionId o.cookieName req = .ok sid) →
    (s.sessions.find o.ttl s.now sid = (some ref, sessions)) →
    Step o s (.lookup k sid s.now (some ref))
      { s with sessions, phase := Function.update s.phase k (.bound req ref none) }
  | miss :
    (s.phase k = .idle) → (sessionId o.cookieName req = .ok sid) →
    (s.sessions.find o.ttl s.now sid = (none, sessions)) →
    Step o s (.lookup k sid s.now none)
      { s with sessions, phase := Function.update s.phase k (.missed req sid) }
  | create {id : Bytes} :
    (s.phase k = .missed req sid) → (s.sessions.renew o.ttl s.now sid id = (ref, sessions)) →
    Step o s (.create k id s.now ref)
      { s with sessions, phase := Function.update s.phase k (.bound req ref (some (setCookie o id))) }
  | issue :
    (s.phase k = .bound req ref cookie) → (req.method = ("GET" : Bytes)) →
    Step o s (.issue k ref token)
      { s with sessions := s.sessions.modify ref (·.set Csrf.key token),
               phase := Function.update s.phase k .done }
  | verify {memory : Memory} :
    (s.phase k = .bound req ref cookie) → (req.method ≠ ("GET" : Bytes)) →
    (Csrf.verify memory req ((s.sessions.objects ref).get Csrf.key) = some forwarded) →
    Step o s (.verify k ref req forwarded)
      { s with phase := Function.update s.phase k .done }
  -- The application works on a session object that it got hold of.
  | write :
    (key ≠ Csrf.key) →
    Step o s (.write ref key value) { s with sessions := s.sessions.modify ref (·.set key value) }

end YNet.Session
