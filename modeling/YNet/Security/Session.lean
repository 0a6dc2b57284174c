import YNet.Core.Request
import YNet.Core.Response

namespace YNet

-- Times are `time_t` values.
structure SessionData where
  expiresAt : Int       := 0
  data      : StringMap := ∅
  id        : Bytes     := []

namespace SessionData

def set (sd : SessionData) (key value : Bytes) : SessionData :=
  { sd with data := sd.data.insert key value }

def get (sd : SessionData) (key : Bytes) : Option Bytes :=
  sd.data.lookup key

end SessionData

-- The session objects that have been created, each under its number, and the table of the sessions.
-- A request refers to a session object, which can outlive its entry in the table.
structure Sessions where
  objects : Nat → SessionData
  count   : Nat
  storage : Bytes → Option Nat

namespace Sessions

def empty : Sessions where
  objects := fun _ => {}
  count   := 0
  storage := fun _ => none

def modify (sessions : Sessions) (ref : Nat) (f : SessionData → SessionData) : Sessions :=
  { sessions with objects := Function.update sessions.objects ref (f (sessions.objects ref)) }

def erase (sessions : Sessions) (id : Bytes) : Sessions :=
  { sessions with storage := Function.update sessions.storage id none }

-- The section under the shared lock. A session that has not expired is refreshed.
def find (sessions : Sessions) (ttl now : Int) (sessionId : Option Bytes) : Option Nat × Sessions :=
  match sessionId with
  | none    => (none, sessions)
  | some id =>
    match sessions.storage id with
    | none     => (none, sessions)
    | some ref =>
      if (sessions.objects ref).expiresAt > now then
        (some ref, sessions.modify ref ({ · with expiresAt := now + ttl }))
      else (none, sessions)

-- `create_session` with the random number that it draws.
def createSession (sessions : Sessions) (ttl now : Int) (id : Bytes) : Nat × Sessions :=
  (sessions.count, {
    objects := Function.update sessions.objects sessions.count { expiresAt := now + ttl, id }
    count   := sessions.count + 1
    storage := Function.update sessions.storage id (some sessions.count)
  })

-- The section under the exclusive lock.
def renew (sessions : Sessions) (ttl now : Int) (sessionId : Option Bytes) (id : Bytes) : Nat × Sessions :=
  match sessionId with
  | none     => sessions.createSession ttl now id
  | some old => (sessions.erase old).createSession ttl now id

-- One pass of the cleanup thread.
def cleanup (sessions : Sessions) (now : Int) : Sessions :=
  { sessions with
    storage := fun id => (sessions.storage id).filter fun ref => now < (sessions.objects ref).expiresAt }

end Sessions

namespace Session

def isId (value : Bytes) : Bool :=
  value.length = 64 && (value.findFirstNotOf "0123456789abcdef").isNone

def trimLeft (s : Bytes) : Bytes :=
  s.drop ((s.findFirstNotOf " ").getD s.length)

def trimRight (s : Bytes) : Bytes :=
  s.take (((s.findLastNotOf " ").map (· + 1)).getD 0)

-- The session id in the value of a `Cookie` header, from an offset on. The first cookie of the right
-- name counts.
def parseCookie (cookieName cookie : Bytes) (i : Nat) : Except Exn (Option Bytes) :=
  if i < cookie.length then
    let semi := (cookie.find ";" i).getD cookie.length
    do
      let token ← cookie.substr i (semi - i)
      match token.find "=" with
      | none    => parseCookie cookieName cookie (semi + 1)
      | some eq =>
        let key := trimLeft (← token.substr 0 eq)
        let value := trimRight (trimLeft (← token.substrFrom (eq + 1)))
        if key = cookieName then return if isId value then some value else none
        else parseCookie cookieName cookie (semi + 1)
  else return none
termination_by cookie.length - i
decreasing_by
  all_goals
    have : i ≤ (cookie.find ";" i).getD cookie.length := by
      cases hf : cookie.find ";" i
      case none   => exact Nat.le_of_lt ‹_›
      case some j => exact Bytes.le_of_find hf
    omega

def sessionId (cookieName : Bytes) (req : Request) : Except Exn (Option Bytes) :=
  match req.getHeader "Cookie" with
  | none        => return none
  | some cookie => parseCookie cookieName cookie 0

end Session
end YNet
