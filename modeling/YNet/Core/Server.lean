import YNet.Core.Router
import YNet.Core.StaticFile
import YNet.Net.Connection
import YNet.Net.WebSocket

open Cpp

namespace YNet

-- What can be seen of the handling of a request.
inductive Event
  -- The bytes are handed to the parser.
  | parse (raw : Bytes)
  -- A middleware is run, or calls its `next`.
  | enter (i : Nat)
  | next (i : Nat)
  -- Code of the application that answers requests.
  | handler
  | staticFile
  | webSocket
  | errorHandler (code : Int)
  | write (data : Bytes)
  | send (res : Response)
  | shutdown
  -- The connection is removed from the table, or waits for the next request.
  | erase
  | rearm
  -- An exception leaves the worker, which ends the process.
  | terminate

structure Server (σ : Type) where
  config        : Config := {}
  router        : Option (Router σ) := none
  middlewares   : List (Middleware σ) := []
  -- Only the handler's steps on the shared state are modelled, not its use of the connection.
  wsRoutes      : Bytes → Option (Code σ Fault Unit) := fun _ => none
  staticFiles   : List StaticFileServer := []
  errorHandlers : Int → Option (Request → Code σ Fault Response) := fun _ => none
  -- The parts of the environment that the server uses.
  fileSystem    : σ → FileSystem
  digest        : Bytes → Bytes

namespace Server

-- The first loop over the reads, which ends behind the header.
def readHead (raw : Bytes) : List (Option Chunk) → Bytes × List (Option Chunk)
  | []                 => (raw, [])
  | none :: rest       => (raw, rest)
  | some chunk :: rest =>
    let raw := raw ++ chunk.bytes
    if (raw.find "\r\n\r\n").isSome then (raw, rest) else readHead raw rest

def contentLength (raw : Bytes) : Except Exn Nat :=
  match raw.find "Content-Length: " with
  | none       => return 0
  | some clPos => do
    let value ← match raw.find "\r\n" clPos with
      | some clEnd => raw.substr (clPos + 16) (clEnd - clPos - 16)
      | none       => raw.substrFrom (clPos + 16)
    stoul value

-- The conversion to `int` cuts off the upper bits.
def maxReads (contentLength : Nat) : Int :=
  (Int32.ofNat (contentLength / 4096 + 10)).toInt

-- The second loop, which ends when the announced number of bytes is there.
def readBody (bodyStart contentLength : Nat) (raw : Bytes) (reads : Int) :
    List (Option Chunk) → Bytes × List (Option Chunk)
  | []                 => (raw, [])
  | none :: rest       => if raw.length - bodyStart < contentLength then (raw, rest) else (raw, none :: rest)
  | some chunk :: rest =>
    if raw.length - bodyStart < contentLength then
      let raw := raw ++ chunk.bytes
      if reads + 1 > maxReads contentLength then (raw, rest)
      else readBody bodyStart contentLength raw (reads + 1) rest
    else (raw, some chunk :: rest)

inductive Received
  | badLength
  | tooLarge
  | raw (raw : Bytes)
  deriving DecidableEq

-- The part of `handleRequest` that reads from the connection, and the reads that it leaves.
def receive (config : Config) (arrivals : List (Option Chunk)) : Received × List (Option Chunk) :=
  let (raw, rest) := readHead [] arrivals
  match raw.find "\r\n\r\n" with
  | none           => (.raw raw, rest)
  | some headerEnd =>
    match contentLength raw with
    | .error _          => (.badLength, rest)
    | .ok contentLength =>
      if contentLength > config.maxUploadSize.toNat then (.tooLarge, rest)
      else
        let (raw, rest) := readBody (headerEnd + 4) contentLength raw 0 rest
        (.raw raw, rest)

variable {σ : Type}

def handleWebSocket (server : Server σ) (req : Request) : Process σ Event :=
  match server.wsRoutes req.path with
  | some handler =>
    .emit (.write (WebSocket.handshake server.digest req)) <|
      .emit .webSocket <|
        handler.exec fun
          | none, _   => .emit .erase .stop
          | some _, _ => .emit .terminate .stop
  | none =>
    .emit (.write "HTTP/1.1 404 Not Found\r\nContent-Length: 0\r\n\r\n") <|
      .emit .erase .stop

def notFound (server : Server σ) : Layer σ Event Fault Exchange := fun x k =>
  match server.errorHandlers 404 with
  | some handler =>
    .emit (.errorHandler 404) <|
      (handler x.req).exec fun
        | none, res => k none { x with res }
        | some e, _ => k (some e) x
  | none => k none { x with res := .error 404 }

def serveStatic (server : Server σ) : List StaticFileServer → Layer σ Event Fault Exchange
  | []            => server.notFound
  | files :: rest => fun x k =>
    .emit .staticFile <|
      .act id fun s =>
        match files.tryServe (server.fileSystem s) x.req x.res with
        | some res => k none { x with res }
        | none     => server.serveStatic rest x k

-- What the innermost `next` does.
def dispatch (server : Server σ) (handler : Option (Handler σ)) : Layer σ Event Fault Exchange :=
  match handler with
  | some handler => fun x k => .emit .handler ((handler x).exec k)
  | none         => server.serveStatic server.staticFiles

def finish (x : Exchange) : Process σ Event :=
  .emit (.send x.res) <|
    if x.req.getHeader "Connection" = some ("close" : Bytes) then .emit .erase .stop
    else .emit .rearm .stop

-- The `catch` clause behind the call of the outermost `next`, and what follows it.
def complete (server : Server σ) : Option Fault → Exchange → Process σ Event
  | none, x            => finish x
  | some .other, _     => .emit .terminate .stop
  | some .exception, x =>
    match server.errorHandlers 500 with
    | some handler =>
      .emit (.errorHandler 500) <|
        (handler x.req).exec fun
          | none, res => finish { x with res }
          | some _, _ => .emit .terminate .stop
    | none => finish { x with res := .error 500 }

def handleParsed (server : Server σ) (req : Request) : Process σ Event :=
  if req.parseError then .emit (.send (.error 400)) <| .emit .erase .stop
  else if WebSocket.isUpgrade req then server.handleWebSocket req
  else
    match server.router with
    | none        => .emit (.send (.error 404)) <| .emit .erase .stop
    | some router =>
      let (handler, req) := router.resolve req.method req.path req
      Code.chain .enter .next (server.dispatch handler) 0 server.middlewares { req, res := {} }
        server.complete

def handleRequest (server : Server σ) (conn : Connection) : Process σ Event :=
  if conn.handshake = some false then .emit .erase .stop
  else
    match (receive server.config conn.arrivals).1 with
    | .badLength => .emit (.send (.error 400)) <| .emit .erase .stop
    | .tooLarge  =>
      .emit (.send (.error 413 "Upload size exceeds limit")) <|
        if conn.handshake.isSome then .emit .shutdown <| .emit .erase .stop else .emit .erase .stop
    | .raw raw   =>
      if raw = [] then .emit .erase .stop
      else
        .emit (.parse raw) <|
          match Request.parse raw server.config with
          | .error _ => .emit .terminate .stop
          | .ok req  => server.handleParsed { req with clientIp := conn.clientIp }

end Server
end YNet
