import YNet.Core.Server
import YNet.Lib.Protocol

open Cpp

namespace YNet

-- How far the handling of a request has come, as it can be told from its events. In the last phases it
-- has nothing more to do with its connection.
inductive Phase
  | reading
  | serving
  | refused
  | answered
  | handshake
  | upgraded
  | erased
  | rearmed
  | terminated
  deriving DecidableEq

namespace Phase

def IsLast : Phase → Prop
  | erased | rearmed | terminated => True
  | _                             => False

-- What a connection may see of the handling of a request: at most one response, and an answer before the
-- connection waits for the next request.
def next : Phase → Event → Option Phase
  | reading, .parse _        => some serving
  | reading, .send _         => some refused
  | reading, .erase          => some erased
  | refused, .shutdown       => some refused
  | refused, .erase          => some erased
  | serving, .enter _        => some serving
  | serving, .next _         => some serving
  | serving, .handler        => some serving
  | serving, .staticFile     => some serving
  | serving, .errorHandler _ => some serving
  | serving, .send _         => some answered
  | serving, .write _        => some handshake
  | serving, .terminate      => some terminated
  | answered, .erase         => some erased
  | answered, .rearm         => some rearmed
  | handshake, .webSocket    => some upgraded
  | handshake, .erase        => some erased
  | upgraded, .erase         => some erased
  | upgraded, .terminate     => some terminated
  | _, _                     => none

end Phase

-- No code of the application runs forever.
structure Server.Halts {σ : Type} (server : Server σ) : Prop where
  middlewares   : ∀ m ∈ server.middlewares, ∀ x, (m x).Halts
  routes        : ∀ router, server.router = some router → ∀ r ∈ router.routes, ∀ x, (r.2 x).Halts
  wsRoutes      : ∀ path handler, server.wsRoutes path = some handler → handler.Halts
  errorHandlers : ∀ code handler, server.errorHandlers code = some handler → ∀ req, (handler req).Halts

end YNet
