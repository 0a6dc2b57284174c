import YNet.Cpp.Bytes
import YNet.Lib.Ownership
import YNet.Lib.Run

open Ownership

namespace YNet

inductive Resource
  | fd (fd : Int)
  | ssl (ssl : Nat)
  deriving DecidableEq

-- A `Connection` with its descriptor, which is -1 if there is none, and its pointer to a TLS session.
structure ConnectionObject where
  clientFd   : Int
  clientIp   : Bytes
  clientPort : UInt16
  ssl        : Option Nat := none

namespace ConnectionObject

-- The functions of the TLS library work on the descriptor, too.
def sslCall (c : ConnectionObject) (ssl : Nat) : List (Event Resource) :=
  [.use (.ssl ssl), .use (.fd c.clientFd)]

-- `read` and `write`.
def transfer (c : ConnectionObject) : List (Event Resource) :=
  if c.clientFd = -1 then []
  else
    match c.ssl with
    | some ssl => c.sslCall ssl
    | none     => [.use (.fd c.clientFd)]

inductive Attempt
  | ended
  | again (polled : Bool)

def rounds (c : ConnectionObject) (ssl : Nat) : List Attempt → List (Event Resource)
  | []                    => []
  | .ended :: _           => c.sslCall ssl
  | .again true :: rest   => c.sslCall ssl ++ .use (.fd c.clientFd) :: c.rounds ssl rest
  | .again false :: _     => c.sslCall ssl ++ [.use (.fd c.clientFd)]

def handshake (c : ConnectionObject) (attempts : List Attempt) : List (Event Resource) :=
  match c.ssl with
  | none     => []
  | some ssl => c.rounds ssl (attempts.take 5)

def setSSL (c : ConnectionObject) (s : Nat) : ConnectionObject :=
  { c with ssl := some s }

-- A first `SSL_shutdown` that returns zero is followed by another one if an answer arrives.
def shutdown (c : ConnectionObject) (ssl : Nat) (waits answered : Bool) : List (Event Resource) :=
  c.sslCall ssl ++ if waits then .use (.fd c.clientFd) :: if answered then c.sslCall ssl else [] else []

def close (c : ConnectionObject) (waits answered : Bool) : List (Event Resource) × ConnectionObject :=
  if c.clientFd = -1 then ([], c)
  else
    let tls :=
      match c.ssl with
      | none     => []
      | some ssl => c.shutdown ssl waits answered ++ [.release (.ssl ssl)]
    (tls ++ [.release (.fd c.clientFd)], { c with clientFd := -1, ssl := none })

def destroy (c : ConnectionObject) (waits answered : Bool) : List (Event Resource) :=
  if c.clientFd ≠ -1 then (c.close waits answered).1 else []

-- What is left of an object that has been moved from, with some string in place of the address.
def movedFrom (c : ConnectionObject) (clientIp : Bytes) : ConnectionObject :=
  { c with clientFd := -1, clientIp, clientPort := 0, ssl := none }

-- What the assignment of another object releases.
def overwrite (c : ConnectionObject) : List (Event Resource) :=
  (if c.clientFd ≠ -1 then [.release (.fd c.clientFd)] else []) ++
    match c.ssl with
    | none     => []
    | some ssl => [.release (.ssl ssl)]

-- The objects that are alive, and the descriptors and TLS sessions that are in use.
structure Objects where
  objects : Nat → Option ConnectionObject
  held    : Finset Resource

namespace Objects

def start : Objects where
  objects := fun _ => none
  held    := ∅

def access (s : Objects) (es : List (Event Resource)) (i : Nat) (c : Option ConnectionObject) : Objects where
  objects := Function.update s.objects i c
  held    := after s.held es

-- The object `j` is moved to `i`.
def move (s : Objects) (es : List (Event Resource)) (i j : Nat) (c : ConnectionObject) (ip : Bytes) : Objects where
  objects := Function.update (Function.update s.objects i (some c)) j (some (c.movedFrom ip))
  held    := after s.held es

-- Descriptors and TLS sessions that are handed in are not in use. After their release, the system may
-- hand in the same numbers again.
inductive Step : Objects → List (Event Resource) → Objects → Prop
  | construct :
    (s.objects i = none) → (fd ≠ -1) → (.fd fd ∉ s.held) →
    Step s [.acquire (.fd fd)] (s.access [.acquire (.fd fd)] i (some { clientFd := fd, clientIp := ip, clientPort := port }))
  | setSSL :
    (s.objects i = some c) → (c.clientFd ≠ -1) → (c.ssl = none) → (.ssl p ∉ s.held) →
    Step s [.acquire (.ssl p)] (s.access [.acquire (.ssl p)] i (some (c.setSSL p)))
  | transfer :
    (s.objects i = some c) → Step s c.transfer (s.access c.transfer i (some c))
  | handshake :
    (s.objects i = some c) → Step s (c.handshake attempts) (s.access (c.handshake attempts) i (some c))
  | close :
    (s.objects i = some c) → (c.close waits answered = (es, c')) → Step s es (s.access es i (some c'))
  | destroy :
    (s.objects i = some c) → Step s (c.destroy waits answered) (s.access (c.destroy waits answered) i none)
  | moveConstruct :
    (s.objects i = none) → (s.objects j = some c) → Step s [] (s.move [] i j c ip)
  | moveAssign :
    (i ≠ j) → (s.objects i = some d) → (s.objects j = some c) →
    Step s d.overwrite (s.move d.overwrite i j c ip)
  | selfAssign :
    (s.objects i = some c) → Step s [] s

end Objects
end ConnectionObject
end YNet
